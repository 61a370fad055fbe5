import Hivex.HiveReopen
import Hivex.HiveHash
import Hivex.HiveAllocateLayout

/-! The header of the image. No call writes to it but a commit, which rewrites a few of its
fields. -/
namespace Hivex

open ByteMemory Commands

/-- The header of `g` is the one of `h`, but for what a commit rewrites. -/
def SameHeader (h g : Hive) : Prop := ∀ i < 0x1000, ¬headerField i → g.addr i = h.addr i

/-- What `hivex_open` asks of the header, besides the fields that a commit sets. -/
structure Headed (h : Hive) : Prop where
  magic : slice h.addr 0 4 = Header.magic
  major : get32 h.addr Header.majorVer = 1
  root : h.rootoffs = get32 h.addr Header.offset + 0x1000

section Header
variable {h g k : Hive} {α : Type} {program : Command α} {b : Nat}

theorem SameHeader.refl (h : Hive) : SameHeader h h := fun _ _ _ => rfl

theorem SameHeader.trans (first : SameHeader h g) (second : SameHeader g k) : SameHeader h k :=
  fun i inside other => (second i inside other).trans (first i inside other)

theorem committed_sameHeader : SameHeader h h.committed := fun _ _ other => committed_addr other

theorem Headed.same (headed : Headed h) (same : SameHeader h g) (rootoffs : g.rootoffs = h.rootoffs) : Headed g := by
  have apart : ∀ i, i < 4 ∨ 20 ≤ i ∧ i < 40 → g.addr i = h.addr i := by
    intro i place
    apply same i (by omega)
    simp only [headerField, Header.sequence1, Header.sequence2, Header.blocks, Header.csum]
    omega
  have word : ∀ i, i = Header.majorVer ∨ i = Header.offset → get32 g.addr i = get32 h.addr i := by
    intro i which
    simp only [Header.majorVer, Header.offset] at which
    apply getLe_congr
    intro k inside
    apply apart
    omega
  constructor
  · rw [← headed.magic]
    apply slice_congr
    intro k inside
    apply apart
    omega
  · rw [word _ (Or.inl rfl)]
    exact headed.major
  · rw [rootoffs, word _ (Or.inr rfl)]
    exact headed.root

-- What is known of a program's end may use that the header is as before.
theorem wp_header {post : α → Hive → Prop} {stop : Stop → Hive → Prop}
    (header : wp program (fun _ g => SameHeader h g) (fun _ _ => True) h)
    (holds : wp program (fun value g => SameHeader h g → post value g) stop h) : wp program post stop h :=
  wp_mono (wp_and header holds) (fun _ _ both => both.2 both.1) fun _ _ stopped => stopped.2

/-- A program that writes behind the header only. -/
theorem Spares.header (spares : Spares 0 0x1000 program) :
    wp program (fun _ g => SameHeader h g) (fun _ _ => True) h := by
  apply wp_mono (spares h)
  · exact fun _ _ same i inside _ => same i (Nat.zero_le i) inside
  · exact fun _ _ _ => trivial

theorem Spares.wr {n i v : Nat} (behind : 0x1000 ≤ i) : Spares 0 0x1000 (Hivex.wrBytes i (leBytes n v)) :=
  Spares.wrBytes (Or.inr behind)

theorem Spares.removeKey {lf nrKeys j : Nat} (behind : 0x1000 ≤ lf) : Spares 0 0x1000 (Hivex.removeKey lf nrKeys j) := by
  have copies : ∀ i ∈ List.range' j (nrKeys - 1 - j), Spares 0 0x1000 (Hivex.copyKey lf lf (i + 1) i) :=
    fun i _ => Spares.copyKey (Or.inr (by omega))
  apply (Spares.forM copies).bind
  exact fun _ => Spares.wr (by omega)

theorem Spares.unlinkSk (skOffset : Nat) : Spares 0 0x1000 (Hivex.unlinkSk skOffset) := by
  unfold Hivex.unlinkSk
  apply (Spares.read _).bind
  intro skPrev
  apply (Spares.read _).bind
  intro skNext
  dsimp only
  split
  · apply (Spares.wr (by omega)).bind
    exact fun _ => Spares.wr (by omega)
  · exact Spares.pure _

end Header

section Allocating
variable {host : Host} {h g : Hive} {pages init : List PageMap} {p : PageMap} {len segLen : Nat} {id : List UInt8}

theorem Readied.header (readied : Readied h g pages init p) (low : 0x1000 ≤ h.endpages)
    (fits : g.endblocks + len ≤ g.endpages) (multiple : len % 8 = 0) (idFits : 4 + id.length ≤ len) :
    wp (placeBlock len id) (fun b k => SameHeader h k ∧ 0x1000 ≤ b) (fun _ _ => True) g := by
  have vacant := readied.vacant
  have aligned := vacant.aligned
  have flat := vacant.flat
  have start := vacant.front.le
  have first := vacant.last_page.1.le
  apply wp_of_ok (placeBlock_run fits vacant.inside idFits fun rest => by omega)
  constructor
  · intro i inside _
    exact (placed_before idFits (by omega)).trans (readied.same i (by omega))
  · omega

/-- A new block is behind the header. -/
theorem Sound.allocate_header (sound : Sound h) (idFits : id.length ≤ 2) :
    wp (Hivex.allocateBlock host segLen id) (fun b g => SameHeader h g ∧ 0x1000 ≤ b) (fun _ _ => True) h := by
  obtain ⟨pages, laid, point⟩ := sound
  have arranged := laid.arranged point
  have low := laid.tiling.le
  unfold Hivex.allocateBlock
  apply (wp_bind _ _ _).mpr
  apply (wp_get _).mpr
  dsimp only
  split
  · trivial
  split
  · trivial
  split
  · trivial
  next long =>
  have limit : segLen ≤ 1000000 := Nat.not_lt.mp long
  set len := (segLen + 7) / 8 * 8 with lenEq
  apply (wp_bind _ _ _).mpr
  apply (wp_get _).mpr
  split
  · apply wp_seq (wp_mono (allocatePage_wp len _ rfl) (fun _ _ done => done) fun _ _ _ => trivial)
    rintro offset h' ⟨g, roomy, room, paged⟩
    apply (wp_bind _ _ _).mpr
    apply (wp_modify _ _).mpr
    rw [paged]
    apply (arranged.readied_page roomy room (by omega) (by omega) (by omega)).header low
    · show g.endpages + 0x20 + len ≤ g.endpages + (1 + (len + 31) / 4096) * 4096
      omega
    · omega
    · omega
  · next roomLeft =>
    have begun : h.endblocks ≠ 0 := fun none => roomLeft (Or.inl none)
    have fits : h.endblocks + len ≤ h.endpages := Nat.not_lt.mp fun beyond => roomLeft (Or.inr beyond)
    obtain ⟨init, p, readied⟩ := arranged.readied begun
    exact readied.header low fits (by omega) (by omega)

end Allocating

section Records
variable {host : Host} {h : Hive} {parent node : Nat} {name : CString}

theorem Sound.newNkRecord_header (sound : Sound h) :
    wp (Hivex.newNkRecord host parent name) (fun _ g => SameHeader h g) (fun _ _ => True) h := by
  unfold Hivex.newNkRecord
  apply wp_seq (sound.allocate_header (by decide))
  rintro b g ⟨same, behind⟩
  apply wp_mono (Spares.header (h := g) ?_)
  · exact fun _ _ kept => same.trans kept
  · exact fun _ _ _ => trivial
  · apply (Spares.wr (by omega)).bind
    intro _
    apply (Spares.wr (by omega)).bind
    intro _
    apply (Spares.wr (by omega)).bind
    intro _
    apply (Spares.wr (by omega)).bind
    intro _
    apply (Spares.wr (by omega)).bind
    intro _
    apply (Spares.wr (by omega)).bind
    intro _
    apply (Spares.wr (by omega)).bind
    intro _
    apply (Spares.wrBytes (Or.inr (by omega))).bind
    exact fun _ => Spares.pure _

theorem Sound.newLhRecord_header (sound : Sound h) :
    wp (Hivex.newLhRecord host name node) (fun _ g => SameHeader h g) (fun _ _ => True) h := by
  unfold Hivex.newLhRecord
  apply wp_seq (sound.allocate_header (by decide))
  rintro b g ⟨same, behind⟩
  apply wp_mono (Spares.header (h := g) ?_)
  · exact fun _ _ kept => same.trans kept
  · exact fun _ _ _ => trivial
  · apply (Spares.wr (by omega)).bind
    intro _
    apply (Spares.wr (by omega)).bind
    intro _
    apply (Spares.wrBytes (Or.inr (by omega))).bind
    exact fun _ => Spares.pure _

end Records

end Hivex
