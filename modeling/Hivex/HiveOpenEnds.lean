import Hivex.FunctionalWalk
import Hivex.HiveOpenBlocks

/-! Which files `hivex_open` reads to an end. The page loop always moves on; the block
loop goes back by 2 GiB at the one length that has no positive negation, and can then
come round to the same block. -/
namespace Hivex

open ByteMemory Relation FunctionalWalk

namespace File

/-- From one block header of a page to the next, as long as the scan goes on. -/
def ScanStep (file : File) (rootoffs pageEnd b c : Nat) : Prop :=
  file.BlockStep pageEnd b c ∧ ¬file.RootCut rootoffs b

/-- A page whose header the scan accepts. -/
def PageRead (file : File) (endpages off : Nat) : Prop :=
  off < file.size ∧ off < endpages ∧ slice file.byte off 4 = Hbin.magic ∧ off + 12 ≤ file.size ∧
    file.GoodPage off

/-- The scan comes to the header at `b` in the page at `off`. -/
def ScanMeets (file : File) (rootoffs off b : Nat) : Prop :=
  ReflTransGen (file.ScanStep rootoffs (off + file.pageSize off)) (off + Hbin.sizeof) b

/-- From a page that the scan has read to the next. -/
def PagePassed (file : File) (rootoffs endpages off next : Nat) : Prop :=
  file.PageRead endpages off ∧ next = off + file.pageSize off ∧
    ∃ b, file.ScanMeets rootoffs off b ∧ off + file.pageSize off ≤ b

/-- In the page at `off` the scan meets a block of length -2^31 from which the chain of
lengths leads back to it. -/
def Circling (file : File) (rootoffs endpages off : Nat) : Prop :=
  file.PageRead endpages off ∧ ∃ b, file.ScanMeets rootoffs off b ∧ get32 file.byte b = 2 ^ 31 ∧
    TransGen (file.ScanStep rootoffs (off + file.pageSize off)) b b

end File

section Blocks
variable {file : File} {rootoffs pageEnd start b c : Nat} {scan : Scan}

theorem scanStep_functional : Relator.RightUnique (file.ScanStep rootoffs pageEnd) := by
  rintro b c d ⟨⟨-, -, -, rfl⟩, -⟩ ⟨⟨-, -, -, rfl⟩, -⟩
  rfl

theorem scan_finite : {b | ReflTransGen (file.ScanStep rootoffs pageEnd) start b}.Finite := by
  apply (Set.finite_Iic (max start (2 ^ 64))).subset
  intro b reached
  rcases ReflTransGen.cases_tail reached with rfl | ⟨c, -, ⟨-, -, -, rfl⟩, -⟩
  · exact Nat.le_max_left _ _
  · exact (Nat.mod_lt _ (by decide)).le.trans (Nat.le_max_right _ _)

/-- Every length but one leads forward. -/
theorem scanStep_forward (page : pageEnd ≤ 2 ^ 33) (step : file.ScanStep rootoffs pageEnd b c)
    (other : get32 file.byte b ≠ 2 ^ 31) : b < c := by
  obtain ⟨⟨inside, -, good, rfl⟩, -⟩ := step
  have word := get32_lt file.byte b
  have long := good.1
  have short : segLength (get32 file.byte b) < 2 ^ 31 := by
    unfold segLength
    split
    · assumption
    · omega
  omega

/-- A walk that does not only lead forward meets the length -2^31. -/
theorem forward_or_back (page : pageEnd ≤ 2 ^ 33) (walk : TransGen (file.ScanStep rootoffs pageEnd) b c) :
    b < c ∨ ∃ d, ReflTransGen (file.ScanStep rootoffs pageEnd) b d ∧ get32 file.byte d = 2 ^ 31 ∧
      TransGen (file.ScanStep rootoffs pageEnd) d c := by
  induction walk with
  | single step =>
      by_cases back : get32 file.byte b = 2 ^ 31
      · exact Or.inr ⟨b, .refl, back, .single step⟩
      · exact Or.inl (scanStep_forward page step back)
  | @tail mid last walk step ih =>
      by_cases back : get32 file.byte mid = 2 ^ 31
      · exact Or.inr ⟨mid, walk.to_reflTransGen, back, .single step⟩
      · rcases ih with before | ⟨d, reached, length, later⟩
        · exact Or.inl (before.trans (scanStep_forward page step back))
        · exact Or.inr ⟨d, reached, length, later.tail step⟩

theorem readBlocks_terminal (reached : ReflTransGen (file.ScanStep rootoffs pageEnd) start b)
    (last : Terminal (file.ScanStep rootoffs pageEnd) b) :
    ∃ fuel, readBlocks file rootoffs pageEnd fuel start scan ≠ .error .fuel := by
  induction reached using ReflTransGen.head_induction_on generalizing scan with
  | refl =>
      refine ⟨1, ?_⟩
      rw [readBlocks]
      split
      · next inside =>
          have spec := readBlock_spec file rootoffs b scan
          cases read : readBlock file rootoffs b scan with
          | ok next =>
              rw [read] at spec
              exact absurd ⟨⟨inside, spec.1, spec.2.1, rfl⟩, spec.2.2.2⟩ (last _)
          | error stop =>
              rw [read] at spec
              intro same
              cases stop with
              | fuel => exact spec.1 rfl
              | _ => cases same
      · exact fun same => by cases same
  | @head here next step _ ih =>
      obtain ⟨⟨within, whole, good, rfl⟩, uncut⟩ := step
      have spec := readBlock_spec file rootoffs here scan
      cases read : readBlock file rootoffs here scan with
      | ok found =>
          rw [read] at spec
          obtain ⟨fuel, ends⟩ := @ih found.2
          refine ⟨fuel + 1, ?_⟩
          simp only [readBlocks, within, if_true, bind, Except.bind, read]
          rw [spec.2.2.1]
          exact ends
      | error stop =>
          rw [read] at spec
          refine ⟨1, ?_⟩
          simp only [readBlocks, within, if_true, bind, Except.bind, read]
          intro same
          cases stop with
          | fuel => exact spec.1 rfl
          | _ => cases same

/-- A scan that ends has come to a header from which it does not go on. -/
theorem terminal_readBlocks {fuel : Nat}
    (ends : readBlocks file rootoffs pageEnd fuel start scan ≠ .error .fuel) :
    ∃ b, ReflTransGen (file.ScanStep rootoffs pageEnd) start b ∧
      Terminal (file.ScanStep rootoffs pageEnd) b := by
  induction fuel generalizing start scan with
  | zero => exact absurd rfl ends
  | succ fuel ih =>
      by_cases more : ∃ c, file.ScanStep rootoffs pageEnd start c
      · obtain ⟨c, step⟩ := more
        have ⟨⟨within, whole, good, next⟩, uncut⟩ := step
        have spec := readBlock_spec file rootoffs start scan
        simp only [readBlocks, within, if_true, bind, Except.bind] at ends
        cases read : readBlock file rootoffs start scan with
        | ok found =>
            rw [read] at spec ends
            have length := spec.2.2.1
            dsimp only at ends
            rw [length, ← next] at ends
            obtain ⟨b, reached, last⟩ := ih ends
            exact ⟨b, reached.head step, last⟩
        | error stop =>
            rw [read] at spec
            cases stop with
            | outside =>
                rcases spec with short | ⟨-, cut⟩
                · omega
                · exact absurd cut uncut
            | _ => exact absurd good spec.2.2
      · exact ⟨start, .refl, fun c step => more ⟨c, step⟩⟩

/-- Reading the blocks of a page goes on for ever exactly when the chain of lengths
comes back to a block of length -2^31. -/
theorem readBlocks_ends_iff (page : pageEnd ≤ 2 ^ 33) :
    (∃ fuel, readBlocks file rootoffs pageEnd fuel start scan ≠ .error .fuel) ↔
      ¬∃ b, ReflTransGen (file.ScanStep rootoffs pageEnd) start b ∧ get32 file.byte b = 2 ^ 31 ∧
        TransGen (file.ScanStep rootoffs pageEnd) b b := by
  have walk := @terminal_iff _ _ start (@scanStep_functional file rootoffs pageEnd) scan_finite
  constructor
  · rintro ⟨fuel, ends⟩ ⟨b, reached, -, circle⟩
    exact walk.mp (terminal_readBlocks ends) ⟨b, reached, circle⟩
  · intro none
    obtain ⟨b, reached, last⟩ := walk.mpr (by
      rintro ⟨b, reached, circle⟩
      rcases forward_or_back page circle with before | ⟨d, later, length, back⟩
      · exact absurd before (Nat.lt_irrefl b)
      · exact none ⟨d, reached.trans later, length, back.trans_left later⟩)
    exact readBlocks_terminal reached last

theorem readBlocks_passed (reached : ReflTransGen (file.ScanStep rootoffs pageEnd) start b)
    (past : pageEnd ≤ b) : ∃ fuel scan', readBlocks file rootoffs pageEnd fuel start scan = .ok scan' := by
  induction reached using ReflTransGen.head_induction_on generalizing scan with
  | refl => exact ⟨1, scan, by simp only [readBlocks, Nat.not_lt.mpr past, if_false]⟩
  | @head here next step _ ih =>
      obtain ⟨⟨within, whole, good, rfl⟩, uncut⟩ := step
      have spec := readBlock_spec file rootoffs here scan
      cases read : readBlock file rootoffs here scan with
      | ok found =>
          rw [read] at spec
          obtain ⟨fuel, scan', done⟩ := @ih found.2
          refine ⟨fuel + 1, scan', ?_⟩
          simp only [readBlocks, within, if_true, bind, Except.bind, read]
          rw [spec.2.2.1]
          exact done
      | error stop =>
          rw [read] at spec
          cases stop with
          | outside =>
              rcases spec with short | ⟨-, cut⟩
              · omega
              · exact absurd cut uncut
          | _ => exact absurd good spec.2.2

theorem passed_readBlocks {fuel : Nat} {scan' : Scan}
    (done : readBlocks file rootoffs pageEnd fuel start scan = .ok scan') :
    ∃ b, ReflTransGen (file.ScanStep rootoffs pageEnd) start b ∧ pageEnd ≤ b := by
  induction fuel generalizing start scan with
  | zero => cases done
  | succ fuel ih =>
      simp only [readBlocks] at done
      split at done
      · next inside =>
          have spec := readBlock_spec file rootoffs start scan
          simp only [bind, Except.bind] at done
          cases read : readBlock file rootoffs start scan with
          | error stop =>
              rw [read] at done
              cases done
          | ok found =>
              rw [read] at done spec
              obtain ⟨whole, good, length, uncut⟩ := spec
              dsimp only at done
              rw [length] at done
              obtain ⟨b, reached, past⟩ := ih done
              exact ⟨b, reached.head ⟨⟨inside, whole, good, rfl⟩, uncut⟩, past⟩
      · next past => exact ⟨start, .refl, Nat.not_lt.mp past⟩

end Blocks

section Pages
variable {file : File} {rootoffs endpages off p : Nat} {scan : Scan}

theorem pageEnd_small (small : endpages ≤ 2 ^ 32) (read : file.PageRead endpages off) :
    off + file.pageSize off ≤ 2 ^ 33 := by
  have before := read.2.1
  have size : file.pageSize off < 2 ^ 32 := get32_lt file.byte _
  omega

theorem readPage_of_read (read : file.PageRead endpages off) (fuel : Nat) :
    readPage file rootoffs fuel off scan =
      (readBlocks file rootoffs (off + file.pageSize off) fuel (off + Hbin.sizeof) scan).map
        fun scan => (file.pageSize off, scan) :=
  readPage_header read.2.2.2.1 read.2.2.1 read.2.2.2.2 fuel

/-- A page with a bad header is refused at once. -/
theorem readPage_refused (inside : off < file.size ∧ off < endpages)
    (bad : ¬file.PageRead endpages off) (fuel : Nat) :
    ∃ stop, readPage file rootoffs fuel off scan = .error stop ∧ stop ≠ .fuel := by
  have spec := file.magicIs_spec off Hbin.magic
  simp only [readPage, bind, Except.bind]
  cases result : file.magicIs off Hbin.magic with
  | error stop =>
      rw [result] at spec
      exact ⟨stop, rfl, by rw [spec.1]; simp⟩
  | ok same =>
      rw [result] at spec
      cases same with
      | false => exact ⟨_, rfl, by simp⟩
      | true =>
          have magic : slice file.byte off 4 = Hbin.magic := spec.2.mp rfl
          by_cases whole : off + 12 ≤ file.size
          · have size : file.rdLe 4 (off + Hbin.pageSize) = .ok (file.pageSize off) :=
              rdLe_file (by simp only [Hbin.pageSize]; omega)
            have wrong : file.pageSize off ≤ Hbin.sizeof ∨ file.pageSize off % 4096 ≠ 0 := by
              by_contra right
              apply bad
              refine ⟨inside.1, inside.2, magic, whole, ?_⟩
              unfold File.GoodPage
              omega
            simp only [if_true, size, wrong]
            exact ⟨_, rfl, by simp⟩
          · have size : file.rdLe 4 (off + Hbin.pageSize) = .error .outside :=
              if_neg (by simp only [Hbin.pageSize]; omega)
            simp only [if_true, size]
            exact ⟨_, rfl, by simp⟩

theorem circling_readPage (small : endpages ≤ 2 ^ 32) (circling : file.Circling rootoffs endpages off)
    (fuel : Nat) : readPage file rootoffs fuel off scan = .error .fuel := by
  obtain ⟨read, b, met, length, circle⟩ := circling
  have none : readBlocks file rootoffs (off + file.pageSize off) fuel (off + Hbin.sizeof) scan =
      .error .fuel := by
    by_contra ends
    exact (readBlocks_ends_iff (pageEnd_small small read)).mp ⟨fuel, ends⟩ ⟨b, met, length, circle⟩
  rw [readPage_of_read read, none]
  rfl

theorem passed_readPage {next : Nat} (passed : file.PagePassed rootoffs endpages off next) :
    ∃ fuel scan', readPage file rootoffs fuel off scan = .ok (file.pageSize off, scan') := by
  obtain ⟨read, -, b, met, past⟩ := passed
  obtain ⟨fuel, scan', done⟩ := @readBlocks_passed file rootoffs _ _ b scan met past
  exact ⟨fuel, scan', by rw [readPage_of_read read, done]; rfl⟩

/-- The page loop does not come past a page that goes on for ever. -/
theorem circling_readPages (small : endpages ≤ 2 ^ 32)
    (reached : ReflTransGen (file.PagePassed rootoffs endpages) off p)
    (circling : file.Circling rootoffs endpages p) (fuel : Nat) :
    readPages file rootoffs endpages fuel off scan = .error .fuel := by
  induction reached using ReflTransGen.head_induction_on generalizing scan fuel with
  | refl =>
      cases fuel with
      | zero => rfl
      | succ fuel =>
          have inside : p < file.size ∧ p < endpages := ⟨circling.1.1, circling.1.2.1⟩
          rw [readPages, if_pos inside, circling_readPage small circling]
          rfl
  | @head here next step _ ih =>
      cases fuel with
      | zero => rfl
      | succ fuel =>
          have inside : here < file.size ∧ here < endpages := ⟨step.1.1, step.1.2.1⟩
          rw [readPages, if_pos inside]
          by_cases ends : readPage file rootoffs fuel here scan = .error .fuel
          · rw [ends]
            rfl
          · obtain ⟨fuel', scan', done⟩ := @passed_readPage file rootoffs endpages here scan next step
            have more := readPage_mono (Nat.le_max_left fuel fuel') ends
            have enough : readPage file rootoffs fuel' here scan ≠ .error .fuel := by
              rw [done]
              simp
            rw [readPage_mono (Nat.le_max_right fuel fuel') enough, done] at more
            have bound := pageEnd_small small step.1
            have onward : (here + file.pageSize here) % 2 ^ 64 = next := by
              rw [step.2.1]
              omega
            rw [← more]
            show readPages file rootoffs endpages fuel ((here + file.pageSize here) % 2 ^ 64) scan' = _
            rw [onward]
            exact ih fuel

theorem readPages_ends (small : endpages ≤ 2 ^ 32) (none : ¬∃ p,
      ReflTransGen (file.PagePassed rootoffs endpages) off p ∧ file.Circling rootoffs endpages p) :
    ∃ fuel, readPages file rootoffs endpages fuel off scan ≠ .error .fuel := by
  induction left : endpages - off using Nat.strong_induction_on generalizing off scan with
  | _ left' ih =>
      by_cases inside : off < file.size ∧ off < endpages
      · by_cases read : file.PageRead endpages off
        · have ends : ¬∃ b, file.ScanMeets rootoffs off b ∧ get32 file.byte b = 2 ^ 31 ∧
              TransGen (file.ScanStep rootoffs (off + file.pageSize off)) b b :=
            fun circle => none ⟨off, .refl, read, circle⟩
          obtain ⟨fuel, done⟩ := (@readBlocks_ends_iff file rootoffs _ _ scan
            (pageEnd_small small read)).mpr ends
          have page := @readPage_of_read file rootoffs endpages off scan read
          cases blocks : readBlocks file rootoffs (off + file.pageSize off) fuel (off + Hbin.sizeof) scan with
          | error stop =>
              refine ⟨fuel + 1, ?_⟩
              rw [readPages, if_pos inside, page, blocks]
              rw [blocks] at done
              exact fun same => done same
          | ok scan' =>
              have whole : readPage file rootoffs fuel off scan = .ok (file.pageSize off, scan') := by
                rw [page, blocks]
                rfl
              have step : file.PagePassed rootoffs endpages off (off + file.pageSize off) :=
                ⟨read, rfl, passed_readBlocks blocks⟩
              have bound := pageEnd_small small read
              have positive : Hbin.sizeof < file.pageSize off := read.2.2.2.2.1
              have later : ¬∃ p, ReflTransGen (file.PagePassed rootoffs endpages) (off + file.pageSize off) p ∧
                  file.Circling rootoffs endpages p := by
                rintro ⟨p, reached, circling⟩
                exact none ⟨p, reached.head step, circling⟩
              have fewer : endpages - (off + file.pageSize off) < left' := by
                have before := inside.2
                omega
              obtain ⟨fuel', rest⟩ := @ih _ fewer _ scan' later rfl
              refine ⟨max fuel fuel' + 1, ?_⟩
              have enough : readPage file rootoffs fuel off scan ≠ .error .fuel := by
                rw [whole]
                simp
              have onward : (off + file.pageSize off) % 2 ^ 64 = off + file.pageSize off := by omega
              rw [readPages, if_pos inside, readPage_mono (Nat.le_max_left fuel fuel') enough, whole]
              show readPages file rootoffs endpages _ ((off + file.pageSize off) % 2 ^ 64) scan' ≠ _
              rw [onward, readPages_mono (Nat.le_max_right fuel fuel') rest]
              exact rest
        · obtain ⟨stop, refused, other⟩ := @readPage_refused file rootoffs endpages off scan inside read 0
          refine ⟨1, ?_⟩
          rw [readPages, if_pos inside, refused]
          exact fun same => other (Except.error.inj same)
      · exact ⟨1, by rw [readPages, if_neg inside]; simp⟩

end Pages

section Open
variable {file : File} {write : Bool}

theorem error_bind_iff {ε α β : Type} {x : Except ε α} {f : α → Except ε β} {reason : ε} :
    (x >>= f) = .error reason ↔ x = .error reason ∨ ∃ value, x = .ok value ∧ f value = .error reason := by
  cases x with
  | error other =>
      constructor
      · intro same
        left
        rw [Except.error.inj same]
      · rintro (same | ⟨value, found, -⟩)
        · rw [Except.error.inj same]
          rfl
        · cases found
  | ok value =>
      constructor
      · exact fun same => Or.inr ⟨value, rfl, same⟩
      · rintro (same | ⟨value', found, same⟩)
        · cases same
        · cases found
          exact same

theorem rdLe_steady {n i : Nat} : file.rdLe n i ≠ .error .fuel := by
  unfold File.rdLe
  split
  · exact fun same => by cases same
  · exact fun same => by cases same

/-- What stops for lack of fuel has a good header. -/
theorem fuel_headerGood {fuel : Nat} (run : hivexOpen fuel file write = .error .fuel) : file.HeaderGood := by
  have refused : ∀ {bad : Prop} [Decidable bad] {code : Errno} {next : Unit → Except Stop Hive},
      (if bad then throw (Stop.errno code) >>= next else next ()) = .error .fuel →
        ¬bad ∧ next () = .error .fuel := by
    intro bad _ code next run
    split at run
    · cases run
    · exact ⟨‹_›, run⟩
  have spec := file.magicIs_spec 0 Header.magic
  unfold hivexOpen at run
  obtain ⟨-, run⟩ := refused run
  rcases error_bind_iff.mp run with none | ⟨same, magic, run⟩
  · rw [none] at spec
    cases spec.1
  · rw [magic] at spec
    cases same with
    | false => cases run
    | true =>
        rcases error_bind_iff.mp run with none | ⟨majorVer, major, run⟩
        · exact absurd none rdLe_steady
        · obtain ⟨one, run⟩ := refused run
          rcases error_bind_iff.mp run with none | ⟨sum, summed, run⟩
          · unfold File.checksum at none
            split at none <;> cases none
          · rcases error_bind_iff.mp run with none | ⟨csum, stored, run⟩
            · exact absurd none rdLe_steady
            · obtain ⟨equal, -⟩ := refused run
              have whole : file.size ≥ 0x200 := by
                unfold File.rdLe at stored
                split at stored
                · next inside => exact inside
                · cases stored
              have checked : sum = headerChecksum file.byte := by
                unfold File.checksum at summed
                split at summed
                · exact (Except.ok.inj summed).symm
                · cases summed
              have word := word_ok major
              have csumWord := word_ok stored
              refine ⟨whole, spec.2.mp rfl, ?_, ?_⟩
              · exact word.symm.trans (not_not.mp one)
              · exact checked.symm.trans ((not_not.mp equal).trans csumWord)

theorem endpages_small : file.endpages ≤ 2 ^ 32 := (Nat.mod_lt _ (by decide)).le

/-- Behind a good header a page that circles keeps the scan going for ever. -/
theorem hivexOpen_circling (good : file.HeaderGood) {p : Nat}
    (reached : ReflTransGen (file.PagePassed file.rootoffs file.endpages) 0x1000 p)
    (circling : file.Circling file.rootoffs file.endpages p) (fuel : Nat) :
    hivexOpen fuel file write = .error .fuel :=
  (hivexOpen_good good fuel rfl).mpr (circling_readPages endpages_small reached circling fuel)

/-- `hivex_open` ends exactly on the files whose header is refused or in whose pages no
chain of block lengths comes back to a block of length -2^31. -/
theorem hivexOpen_ends_iff (file : File) (write : Bool) :
    (∃ fuel, hivexOpen fuel file write ≠ .error .fuel) ↔
      ¬(file.HeaderGood ∧ ∃ p, ReflTransGen (file.PagePassed file.rootoffs file.endpages) 0x1000 p ∧
        file.Circling file.rootoffs file.endpages p) := by
  constructor
  · rintro ⟨fuel, ends⟩ ⟨good, p, reached, circling⟩
    exact ends (hivexOpen_circling good reached circling fuel)
  · intro none
    by_cases good : file.HeaderGood
    · obtain ⟨fuel, ends⟩ := @readPages_ends file file.rootoffs file.endpages 0x1000
        ⟨fun _ => 0, false, false⟩ endpages_small fun circle => none ⟨good, circle⟩
      exact ⟨fuel, fun stopped => ends ((hivexOpen_good good fuel rfl).mp stopped)⟩
    · exact ⟨0, fun stopped => good (fuel_headerGood stopped)⟩

end Open

-- One page of 2 GiB and 8 KiB: two free blocks of 1 GiB, then one of length -2^31.
def circlingImage : Mem :=
  [(0x1000 + Hbin.pageSize, leBytes 4 0x80002000), (0x1090, leBytes 4 0x40000000),
    (0x40001090, leBytes 4 0x40000000),
    (0x80001090, leBytes 4 0x80000000)].foldl (fun image (i, bytes) => blit image i bytes) minimalImage

def circlingHive : Hive :=
  { minimal with
    size := 0x80003000
    addr := circlingImage
    endpages := 0x80003000 }

def circlingFile : File := circlingHive.committed.file

theorem circlingFile_good : circlingFile.HeaderGood where
  whole := by decide
  magic := by decide +kernel
  major := by decide +kernel
  checksum := committed_checksum

theorem circlingFile_step {b word : Nat} (whole : b + 6 ≤ 0x80003000)
    (stored : get32 circlingFile.byte b = word) (good : 4 < segLength word ∧ segLength word % 4 = 0) :
    circlingFile.ScanStep circlingFile.rootoffs 0x80003000 b ((b + segLength word) % 2 ^ 64) := by
  have size : circlingFile.size = 0x80003000 := rfl
  subst stored
  constructor
  · exact ⟨by omega, by omega, good, rfl⟩
  · rintro ⟨-, -, -, k, short, ends, -⟩
    have inId : k < 2 := short
    omega

/-- Opening this file does not end. -/
theorem circlingFile_endless : ¬∃ fuel, hivexOpen fuel circlingFile true ≠ .error .fuel := by
  rintro ⟨fuel, ends⟩
  have size : circlingFile.pageSize 0x1000 = 0x80002000 := by decide +kernel
  have pages : circlingFile.endpages = 0x80003000 := by decide +kernel
  have read : circlingFile.PageRead circlingFile.endpages 0x1000 := by
    refine ⟨by decide, by rw [pages]; decide, by decide +kernel, by decide, ?_⟩
    rw [File.GoodPage, size]
    decide
  have root := @circlingFile_step 0x1020 (2 ^ 32 - 88) (by decide) (by decide +kernel) (by decide)
  have sk := @circlingFile_step 0x1078 (2 ^ 32 - 24) (by decide) (by decide +kernel) (by decide)
  have first := @circlingFile_step 0x1090 0x40000000 (by decide) (by decide +kernel) (by decide)
  have second := @circlingFile_step 0x40001090 0x40000000 (by decide) (by decide +kernel) (by decide)
  have back := @circlingFile_step 0x80001090 (2 ^ 31) (by decide) (by decide +kernel) (by decide)
  have circling : circlingFile.Circling circlingFile.rootoffs circlingFile.endpages 0x1000 := by
    refine ⟨read, 0x80001090, ?_, by decide +kernel, ?_⟩
    · rw [File.ScanMeets, size]
      exact (((ReflTransGen.single root).tail sk).tail first).tail second
    · rw [size]
      exact ((TransGen.single back).tail first).tail second
  exact ends (hivexOpen_circling circlingFile_good .refl circling fuel)

end Hivex
