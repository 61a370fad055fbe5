import Hivex.HiveContract
import Hivex.HiveReopen

/-! Commits on a handle with roles: what is written out opens again with the same records. -/
namespace Hivex

open ByteMemory Commands StoreTyping GhostRuns

/-- Commit to a file and open this file again for writing. The new handle gets the fuel that its
end of pages asks for. -/
def commitReopen (io : CommitIo) : Command Unit := do
  let file ← hivexCommit io 0
  let h ← get
  match hivexOpen (h.endpages + 2) file true with
  | .ok g => set g
  | .error reason => throw reason

/-- A hive whose root key is in use and named by the header. -/
structure Rooted (h : Hive) (roles : Roles) : Prop extends Kept h roles where
  root : roles h.rootoffs = some (.nk none)
  rootThere : (h.cell h.rootoffs).isSome
  headed : Headed h

section Commits
variable {host : Host} {h h' : Hive} {roles : Roles} {scope : Scope} {pages : List PageMap}

/-- A commit rewrites fields of the header alone. -/
theorem Sound.committed (sound : Sound h) : Sound h.committed := by
  obtain ⟨pages, laid, point⟩ := sound
  refine ⟨pages, laid.committed, point.congr rfl rfl fun unused member => ?_⟩
  have bounds := laid.block_inside member
  rw [← unused]
  unfold Hive.blockUsed Hive.blockWord
  apply congrArg segUsed
  apply getLe_congr
  intro k _
  apply committed_behind
  omega

theorem committed_cell : h.committed.cell = h.cell := by
  funext b
  have low : h.valid b = true → 0x1000 ≤ b := by
    intro valid
    simp only [Hive.valid, decide_eq_true_eq] at valid
    exact valid.2.1
  have same : h.committed.valid b = h.valid b := rfl
  apply cell_congr same
  · intro valid
    have bound := low valid
    unfold Hive.blockLength Hive.blockWord
    apply congrArg segLength
    apply getLe_congr
    intro k _
    apply committed_behind
    omega
  · intro valid k _
    have bound := low valid
    apply committed_behind
    omega

-- Changes that no record shows.
theorem Kept.sameCells (kept : Kept h roles) (becomes : Becomes h h' h.cell) (header : SameHeader h h') :
    Kept h' roles ∧ Moves scope roles h roles h' := by
  have cells := becomes.cells
  constructor
  · constructor
    · exact kept.toTyped.becomes becomes kept.cells
    · rw [cells]
      exact kept.ring
  constructor
  · exact becomes.keeps
  · exact fun _ _ => rfl
  · intro b _ _
    rw [cells]
  · intro b _ _
    rw [cells]
  · intro b _ gone
    rw [cells, gone]
  · intro b _ _ up _ c c' found found'
    rw [cells, found] at found'
    cases found'
    exact SameKey.refl _ c
  · exact Extends.refl roles
  · intro b p untagged isNk
    rw [untagged] at isNk
    cases isNk
  · exact header

theorem Kept.committed (kept : Kept h roles) : Kept h.committed roles ∧ Moves scope roles h roles h.committed := by
  apply kept.sameCells
  · constructor
    · exact kept.sound.committed
    · exact ⟨rfl, rfl, Nat.le_refl _, fun small => small, Nat.le_refl _⟩
    · exact committed_cell
  · exact committed_sameHeader

theorem Kept.commits (kept : Kept h roles) (there : (h.cell h.rootoffs).isSome) (io : CommitIo) (flags : Nat) :
    Abides host scope roles (hivexCommit io flags) (fun file roles' h' => roles' = roles ∧ file = h.committed.file ∧ h' = h.committed) h := by
  obtain ⟨c, found⟩ := Option.isSome_iff_exists.mp there
  have bounds := kept.sound.cell_bounds found
  have committed : Kept h.committed roles ∧ Moves scope roles h roles h.committed := kept.committed
  obtain ⟨kept', moves⟩ := committed
  unfold hivexCommit
  apply Runs.ite
  · exact fun _ => kept.leaves .EINVAL
  intro _
  apply Runs.get
  apply Runs.ite
  · exact fun _ => kept.leaves .EROFS
  intro _
  apply Runs.ite
  · exact fun _ => kept.leaves .system
  intro _
  apply Runs.after (updates_run (by omega) _) moves
  apply Runs.ite
  · exact fun _ => kept'.leaves .system
  intro _
  apply Runs.ite
  · exact fun _ => kept'.leaves .system
  intro _
  apply Runs.get
  exact kept'.done _ ⟨rfl, rfl, rfl⟩

theorem Rooted.rootOk (rooted : Rooted h roles) : h.RootOk := by
  obtain ⟨c, found⟩ := Option.isSome_iff_exists.mp rooted.rootThere
  have fits := rooted.toTyped.nk rooted.root found
  have bounds := rooted.sound.cell_bounds found
  obtain ⟨valid, -, bytes⟩ := cell_some found
  constructor
  · exact valid
  · rw [← fits.id]
    apply slice_congr
    intro k inside
    have long := fits.len
    rw [bytes _ (by omega)]
    congr 1
    omega

theorem Rooted.committable (rooted : Rooted h roles) : Committable h := by
  obtain ⟨pages, laid, point⟩ := rooted.sound
  constructor
  · exact rooted.headed.magic
  · exact rooted.headed.major
  · exact rooted.headed.root
  · exact rooted.rootOk
  · exact ⟨pages, laid⟩
  · have inside := laid.inside
    have small := rooted.small
    omega

theorem LaidOut.reopened (laid : LaidOut h pages) : LaidOut (h.reopened pages true) pages := by
  have size : (h.reopened pages true).size = h.size := rfl
  have endpages : (h.reopened pages true).endpages = h.endpages := rfl
  apply laid.of_headers size endpages
  · exact fun _ _ _ _ => rfl
  · exact fun _ _ => rfl
  · intro off aligned within
    rw [reopened_marks laid true within]
    exact laid.bits off aligned within

theorem Sound.frontier_le (laid : LaidOut h pages) (point : AllocPoint h pages) : h.frontier ≤ h.endpages + 0x20 := by
  unfold Hive.frontier
  split
  · exact Nat.le_refl _
  · obtain ⟨init, p, opened⟩ := laid.opened point ‹_›
    have room := opened.room
    omega

theorem reopened_cell (laid : LaidOut h pages) : (h.reopened pages true).cell = h.cell := by
  have same : ∀ b, (h.reopened pages true).valid b = h.valid b := by
    intro b
    have size : (h.reopened pages true).size = h.size := rfl
    unfold Hive.valid
    rw [size]
    by_cases inside : b < h.size
    · rw [reopened_marks laid true (show b / 32 < bitmapLen h.size by unfold bitmapLen; omega)]
    · simp only [inside, false_and, and_false]
  funext b
  exact cell_congr (same b) (fun _ => rfl) fun _ _ _ => rfl

/-- The handle that opens a committed image shows the records of the one committed. -/
theorem Rooted.reopened (rooted : Rooted h roles) (laid : LaidOut h pages) (point : AllocPoint h pages) :
    Becomes h (h.committed.reopened pages true) h.cell := by
  obtain ⟨rootoffs, endpages, size, addr⟩ := reopened_fields (h := h.committed) pages true
  constructor
  · exact ⟨pages, laid.committed.reopened, Or.inl rfl⟩
  · constructor
    · exact rootoffs
    · exact rooted.writable.symm
    · exact Nat.le_refl _
    · exact fun small => small
    · exact Sound.frontier_le laid point
  · rw [reopened_cell laid.committed]
    exact committed_cell

theorem Rooted.reopens (rooted : Rooted h roles) (io : CommitIo) :
    Abides host scope roles (commitReopen io) (fun _ roles' g => roles' = roles ∧ g.cell = h.cell) h := by
  unfold commitReopen
  apply (rooted.toKept.commits rooted.rootThere io 0).bind
  rintro file roles' h' kept' - ⟨rfl, rfl, rfl⟩
  obtain ⟨pages, laid, point⟩ := rooted.sound
  have becomes := rooted.reopened laid point
  have opens := rooted.committable.opens laid true
  apply Runs.get
  have ends : h.committed.endpages = h.endpages := rfl
  rw [ends, opens]
  obtain ⟨kept, moves⟩ : Kept _ roles' ∧ Moves scope roles' h.committed roles' (h.committed.reopened pages true) := by
    apply kept'.sameCells
    · constructor
      · exact becomes.sound
      · obtain ⟨rootoffs, writable, size, small, frontier⟩ := becomes.keeps
        exact ⟨rootoffs, writable, size, small, frontier⟩
      · rw [becomes.cells, committed_cell]
    · exact SameHeader.refl _
  exact ⟨roles', kept, moves, rfl, becomes.cells⟩

theorem committed_agrees (h : Hive) : View.Agrees h.view h.committed.view :=
  view_agrees rfl rfl (fun _ _ => rfl) fun _ behind => committed_behind behind

/-- A commit that fails has written to the header at most. -/
theorem hivexCommit_ends (io : CommitIo) (large : 0x200 ≤ h.size) :
    wp (hivexCommit io 0) (fun file g => file = h.committed.file ∧ g = h.committed)
      (fun reason g => Coded reason ∧ View.Agrees h.view g.view) h := by
  have before : View.Agrees h.view h.view := view_agrees rfl rfl (fun _ _ => rfl) fun _ _ => rfl
  have after := committed_agrees h
  simp only [hivexCommit, ne_eq, not_true_eq_false, if_false]
  apply (wp_bind _ _ _).mpr
  apply (wp_get _).mpr
  split
  · exact ⟨coded _, before⟩
  split
  · exact ⟨coded _, before⟩
  unfold wp
  rw [updates_run large]
  cases io.writeOk with
  | false => exact ⟨coded _, after⟩
  | true =>
  cases io.closeOk with
  | false => exact ⟨coded _, after⟩
  | true => exact ⟨rfl, rfl⟩

/-- Whether the file can be written or not, all that can be read is as before. -/
theorem Rooted.reopens_alike (rooted : Rooted h roles) (io : CommitIo) :
    wp (commitReopen io) (fun _ g => View.Agrees h.view g.view)
      (fun reason g => Coded reason ∧ View.Agrees h.view g.view) h := by
  obtain ⟨pages, laid, point⟩ := rooted.sound
  obtain ⟨c, found⟩ := Option.isSome_iff_exists.mp rooted.rootThere
  have bounds := rooted.sound.cell_bounds found
  unfold commitReopen
  apply wp_seq (hivexCommit_ends io (by omega))
  rintro file g ⟨rfl, rfl⟩
  apply (wp_bind _ _ _).mpr
  apply (wp_get _).mpr
  have ends : h.committed.endpages = h.endpages := rfl
  rw [ends, rooted.committable.opens laid true]
  exact (reopened_agrees laid true).1

theorem Rooted.reopens_run (rooted : Rooted h roles) : ∃ g, commitReopen ⟨true, true, true⟩ h = .ok () g := by
  obtain ⟨pages, laid, point⟩ := rooted.sound
  obtain ⟨c, found⟩ := Option.isSome_iff_exists.mp rooted.rootThere
  have bounds := rooted.sound.cell_bounds found
  unfold commitReopen
  rw [run_ok (hivexCommit_run (by omega) rooted.writable), get_then]
  have ends : h.committed.endpages = h.endpages := rfl
  rw [ends, rooted.committable.opens laid true]
  exact ⟨_, rfl⟩

end Commits

end Hivex
