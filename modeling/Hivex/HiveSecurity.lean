import Hivex.HiveContract

/-! Giving up a reference to a security record. The last one takes the record out of its
ring and frees it. -/
namespace Hivex

open ByteMemory Commands StoreTyping LinkedRing

/-- The number of references that a security record counts while it is in use. -/
def Cells.refcount (cells : Cells) (s : Nat) : Option Nat := (cells s).map fun c => c.get32 Sk.refcount

/-- `h` has become `g`, in which the security record `s` counts one reference less. -/
structure SkReleased (roles : Roles) (h g : Hive) (s : Nat) : Prop where
  kept : Kept g roles
  keeps : Keeps h g
  others : ∀ b, roles b ≠ some .sk → g.cell b = h.cell b
  counts : ∀ t, t ≠ s → g.cell.refcount t = h.cell.refcount t
  own : ∃ r, h.cell.refcount s = some (r + 1) ∧ g.cell.refcount s = if r = 0 then none else some r

/-- `h` has become `g`, in which the neighbours of `s` are linked with each other. -/
structure Unlinked (roles : Roles) (h g : Hive) (s : Nat) : Prop where
  typed : Typed g roles
  keeps : Keeps h g
  own : g.cell s = h.cell s
  others : ∀ b, roles b ≠ some .sk → g.cell b = h.cell b
  counts : ∀ t, g.cell.refcount t = h.cell.refcount t
  next : ∀ t, t ≠ s → g.cell.skNext t = nextWithout h.cell.skNext h.cell.skPrev s t
  prev : ∀ t, t ≠ s → g.cell.skPrev t = prevWithout h.cell.skNext h.cell.skPrev s t

section Cells
variable {cells : Cells} {s t : Nat} {c : Cell}

theorem refcount_cell (found : cells s = some c) : cells.refcount s = some (c.get32 Sk.refcount) := by
  rw [Cells.refcount, found]
  rfl

theorem skNext_cell (found : cells s = some c) : cells.skNext s = c.get32 Sk.skNext + 0x1000 := by
  rw [Cells.skNext, found]
  rfl

theorem skPrev_cell (found : cells s = some c) : cells.skPrev s = c.get32 Sk.skPrev + 0x1000 := by
  rw [Cells.skPrev, found]
  rfl

end Cells

section Release
variable {roles : Roles} {h g : Hive} {s b i v : Nat} {c : Cell}

-- A word behind the id of a security record may be changed.
theorem Typed.writesSk (typed : Typed h roles) (tagged : roles s = some .sk) (found : h.cell s = some c)
    (lower : 6 ≤ i) (upper : i + 4 ≤ 20) {post : Unit → Hive → Prop} {stop : Stop → Hive → Prop}
    (continues : ∀ g, Typed g roles → Wrote h g s (c.put32 i v) → post () g) :
    wp (wr32 (s + i) v) post stop h := by
  have fits : SkTyped c := typed.cells _ _ _ tagged found
  have long := fits.len
  apply typed.wp_write tagged found (by omega) (by rw [leBytes_length]; omega)
  · exact ⟨fits.len, (Cell.id_put c lower).trans fits.id⟩
  · exact fun g typed' becomes => continues g typed' becomes.wrote

-- What a write to one of the three words changes.
theorem Wrote.skNext (wrote : Wrote h g s (c.put32 Sk.skNext v)) (found : h.cell s = some c) (small : v < 2 ^ 32) :
    g.cell.skNext = Function.update h.cell.skNext s (v + 0x1000) ∧ g.cell.skPrev = h.cell.skPrev ∧
      g.cell.refcount = h.cell.refcount := by
  refine ⟨funext fun t => ?_, funext fun t => ?_, funext fun t => ?_⟩ <;> by_cases here : t = s
  · rw [here, Function.update_self, skNext_cell wrote.here, Cell.get32, Cell.get_put_same]
    omega
  · rw [Function.update_of_ne here, Cells.skNext, Cells.skNext, wrote.others t here]
  · rw [here, skPrev_cell wrote.here, skPrev_cell found, Cell.get32, Cell.get_put c (Or.inr (by decide))]
  · rw [Cells.skPrev, Cells.skPrev, wrote.others t here]
  · rw [here, refcount_cell wrote.here, refcount_cell found, Cell.get32, Cell.get_put c (Or.inr (by decide))]
  · rw [Cells.refcount, Cells.refcount, wrote.others t here]

theorem Wrote.skPrev (wrote : Wrote h g s (c.put32 Sk.skPrev v)) (found : h.cell s = some c) (small : v < 2 ^ 32) :
    g.cell.skPrev = Function.update h.cell.skPrev s (v + 0x1000) ∧ g.cell.skNext = h.cell.skNext ∧
      g.cell.refcount = h.cell.refcount := by
  refine ⟨funext fun t => ?_, funext fun t => ?_, funext fun t => ?_⟩ <;> by_cases here : t = s
  · rw [here, Function.update_self, skPrev_cell wrote.here, Cell.get32, Cell.get_put_same]
    omega
  · rw [Function.update_of_ne here, Cells.skPrev, Cells.skPrev, wrote.others t here]
  · rw [here, skNext_cell wrote.here, skNext_cell found, Cell.get32, Cell.get_put c (Or.inl (by decide))]
  · rw [Cells.skNext, Cells.skNext, wrote.others t here]
  · rw [here, refcount_cell wrote.here, refcount_cell found, Cell.get32, Cell.get_put c (Or.inr (by decide))]
  · rw [Cells.refcount, Cells.refcount, wrote.others t here]

theorem Wrote.links (wrote : Wrote h g s (c.put32 Sk.refcount v)) (found : h.cell s = some c) :
    g.cell.skNext = h.cell.skNext ∧ g.cell.skPrev = h.cell.skPrev := by
  refine ⟨funext fun t => ?_, funext fun t => ?_⟩ <;> by_cases here : t = s
  · rw [here, skNext_cell wrote.here, skNext_cell found, Cell.get32, Cell.get_put c (Or.inl (by decide))]
  · rw [Cells.skNext, Cells.skNext, wrote.others t here]
  · rw [here, skPrev_cell wrote.here, skPrev_cell found, Cell.get32, Cell.get_put c (Or.inl (by decide))]
  · rw [Cells.skPrev, Cells.skPrev, wrote.others t here]

theorem Wrote.refcount (wrote : Wrote h g s (c.put32 Sk.refcount v)) (found : h.cell s = some c)
    (small : v < 2 ^ 32) :
    g.cell.refcount = Function.update h.cell.refcount s (some v) ∧ g.cell.skNext = h.cell.skNext ∧
      g.cell.skPrev = h.cell.skPrev := by
  refine ⟨funext fun t => ?_, wrote.links found⟩
  by_cases here : t = s
  · rw [here, Function.update_self, refcount_cell wrote.here, Cell.get32, Cell.get_put_same]
    congr 1
    omega
  · rw [Function.update_of_ne here, Cells.refcount, Cells.refcount, wrote.others t here]

-- The links of a security record are words of 32 bits.
theorem skNext_small (found : h.cell s = some c) : h.cell.skNext s - 0x1000 < 2 ^ 32 := by
  have small := c.get32_lt Sk.skNext
  rw [skNext_cell found]
  omega

theorem skPrev_small (found : h.cell s = some c) : h.cell.skPrev s - 0x1000 < 2 ^ 32 := by
  have small := c.get32_lt Sk.skPrev
  rw [skPrev_cell found]
  omega

theorem skBlocks_mem (tagged : roles s = some .sk) (found : h.cell s = some c) :
    s ∈ skBlocks roles h.cell := ⟨tagged, by rw [found]; rfl⟩

theorem Kept.unlinkSk {stop : Stop → Hive → Prop} (kept : Kept h roles) (tagged : roles s = some .sk)
    (found : h.cell s = some c) :
    wp (Hivex.unlinkSk s) (fun _ g => Unlinked roles h g s) stop h := by
  have fits : SkTyped c := kept.cells _ _ _ tagged found
  have long := fits.len
  have ring := kept.ring
  have member := skBlocks_mem tagged found
  have prevWord := rd32_cell (i := Sk.skPrev) kept.sound found (by simp only [Sk.skPrev]; omega)
  have nextWord := rd32_cell (i := Sk.skNext) kept.sound found (by simp only [Sk.skNext]; omega)
  refine (wp_bind _ _ _).mpr (wp_read prevWord ?_)
  refine (wp_bind _ _ _).mpr (wp_read nextWord ?_)
  dsimp only
  have nextAt := skNext_cell found
  have prevAt := skPrev_cell found
  rw [← nextAt, ← prevAt]
  split
  · next apart =>
    obtain ⟨isPrev, alivePrev⟩ := ring.prev_mem s member
    obtain ⟨isNext, aliveNext⟩ := ring.next_mem s member
    obtain ⟨cp, foundPrev⟩ := Option.isSome_iff_exists.mp alivePrev
    refine (wp_bind _ _ _).mpr (kept.toTyped.writesSk isPrev foundPrev (by decide) (by decide)
      fun g₁ typed₁ first => ?_)
    obtain ⟨next₁, prev₁, counts₁⟩ := first.skNext foundPrev (skNext_small found)
    obtain ⟨cn, foundNext⟩ : ∃ cn, g₁.cell (h.cell.skNext s) = some cn := by
      by_cases same : h.cell.skNext s = h.cell.skPrev s
      · exact ⟨_, by rw [same]; exact first.here⟩
      · rw [first.others _ same]
        exact Option.isSome_iff_exists.mp aliveNext
    apply typed₁.writesSk isNext foundNext (by decide) (by decide)
    intro g₂ typed₂ second
    obtain ⟨prev₂, next₂, counts₂⟩ := second.skPrev foundNext (skPrev_small found)
    have low : ∀ {t}, t ∈ skBlocks roles h.cell → t - 0x1000 + 0x1000 = t := by
      intro t ⟨isSk, _⟩
      have bounds := kept.bounds t _ isSk
      omega
    constructor
    · exact typed₂
    · exact first.keeps.trans second.keeps
    · rw [second.others s apart.2.symm, first.others s apart.1.symm]
    · intro b notSk
      rw [second.others b fun same => notSk (same ▸ isNext), first.others b fun same => notSk (same ▸ isPrev)]
    · intro t
      rw [counts₂, counts₁]
    · intro t _
      rw [next₂, next₁, low (ring.next_mem s member)]
      rfl
    · intro t _
      rw [prev₂, prev₁, low (ring.prev_mem s member)]
      rfl
  · next alone =>
    have both : h.cell.skPrev s = s ∧ h.cell.skNext s = s := by
      have iff := ring.alone_iff member
      by_cases back : h.cell.skPrev s = s
      · exact ⟨back, iff.mp back⟩
      · have ahead : h.cell.skNext s = s := by
          by_contra other
          exact alone ⟨back, other⟩
        exact ⟨iff.mpr ahead, ahead⟩
    constructor
    · exact kept.toTyped
    · exact Keeps.refl h
    · rfl
    · exact fun _ _ => rfl
    · exact fun _ => rfl
    · intro t other
      rw [nextWithout, both.1, Function.update_of_ne other]
    · intro t other
      rw [prevWithout, both.2, Function.update_of_ne other]

-- The ring stays where the links and the security records in use stay.
theorem Kept.relinked (kept : Kept h roles) (typed : Typed g roles)
    (alive : ∀ t, roles t = some .sk → (g.cell t).isSome = (h.cell t).isSome)
    (next : ∀ t, roles t = some .sk → g.cell.skNext t = h.cell.skNext t)
    (prev : ∀ t, roles t = some .sk → g.cell.skPrev t = h.cell.skPrev t) : Kept g roles := by
  have same : skBlocks roles g.cell = skBlocks roles h.cell := by
    ext t
    simp only [skBlocks, Set.mem_ofPred_eq]
    refine and_congr_right fun isSk => ?_
    rw [alive t isSk]
  refine ⟨typed, ?_⟩
  rw [same]
  exact kept.ring.congr (fun t member => next t member.1) fun t member => prev t member.1

-- The neighbours of a freed security record make a ring without it.
theorem Kept.freed {k : Hive} (kept : Kept h roles) (tagged : roles s = some .sk) (found : h.cell s = some c)
    (unlinked : Unlinked roles h g s) (typed : Typed k roles)
    (cells : k.cell = Function.update g.cell s none) : Kept k roles := by
  have gone : k.cell s = none := by rw [cells, Function.update_self]
  have away : ∀ t, t ≠ s → k.cell t = g.cell t := fun t other => by
    rw [cells, Function.update_of_ne other]
  have members : skBlocks roles k.cell = skBlocks roles h.cell \ {s} := by
    ext t
    simp only [skBlocks, Set.mem_ofPred_eq, Set.mem_sdiff, Set.mem_singleton_iff]
    by_cases here : t = s
    · rw [here, gone]
      simp
    · have count := unlinked.counts t
      have alive : (g.cell t).isSome = (h.cell t).isSome := by
        simpa [Cells.refcount] using congrArg Option.isSome count
      rw [away t here, alive]
      simp [here]
  refine ⟨typed, ?_⟩
  rw [members]
  apply (kept.ring.unlink (skBlocks_mem tagged found)).congr
  · rintro t ⟨-, other⟩
    rw [Cells.skNext, away t other]
    exact unlinked.next t other
  · rintro t ⟨-, other⟩
    rw [Cells.skPrev, away t other]
    exact unlinked.prev t other

theorem Kept.deleteSk {w : Nat} (kept : Kept h roles) (points : Points roles w .sk) :
    wp (Hivex.deleteSk (w + 0x1000)) (fun _ g => roles (w + 0x1000) = some .sk ∧
      SkReleased roles h g (w + 0x1000)) (fun _ _ => True) h := by
  refine (wp_bind _ _ _).mpr (wp_read (isValidBlock_view _) ?_)
  cases found : h.cell (w + 0x1000) with
  | none =>
      rw [valid_eq_isSome, found]
      trivial
  | some c =>
  obtain ⟨tagged, fits⟩ := kept.toTyped.follow points found
  have long := SkTyped.len fits
  rw [(cell_some found).1, if_pos rfl]
  refine (wp_bind _ _ _).mpr (wp_read (blockIdEq_cell kept.sound found _) ?_)
  rw [if_pos (decide_eq_true (SkTyped.id fits))]
  generalize w + 0x1000 = s at *
  have count := rd32_cell (i := Sk.refcount) kept.sound found (by simp only [Sk.refcount]; omega)
  have limit := c.get32_lt Sk.refcount
  refine (wp_bind _ _ _).mpr (wp_read count ?_)
  by_cases zero : c.get32 Sk.refcount = 0
  · rw [if_pos zero]
    trivial
  rw [if_neg zero]
  refine (wp_bind _ _ _).mpr (kept.toTyped.writesSk tagged found (by decide) (by decide)
    fun g₁ typed₁ counted => ?_)
  obtain ⟨counts₁, next₁, prev₁⟩ := counted.refcount found (by omega)
  have kept₁ : Kept g₁ roles := kept.relinked typed₁ (by
    intro t _
    by_cases here : t = s
    · rw [here, counted.here, found]
      rfl
    · rw [counted.others t here]) (fun t _ => by rw [next₁]) fun t _ => by rw [prev₁]
  have before := refcount_cell found
  have step : c.get32 Sk.refcount = c.get32 Sk.refcount - 1 + 1 := by omega
  split
  · next last =>
    refine wp_seq (kept₁.unlinkSk tagged counted.here) fun _ g₂ unlinked => ?_
    refine unlinked.typed.wp_free trivial fun c₂ g₃ found₂ typed₃ becomes => ⟨tagged, ?_⟩
    have away : ∀ t, t ≠ s → g₃.cell t = g₂.cell t := fun t other => by
      rw [becomes.cells, Function.update_of_ne other]
    have gone : g₃.cell s = none := by rw [becomes.cells, Function.update_self]
    constructor
    · exact kept₁.freed tagged counted.here unlinked typed₃ becomes.cells
    · exact counted.keeps.trans (unlinked.keeps.trans becomes.keeps)
    · intro b notSk
      have other : b ≠ s := fun same => notSk (same ▸ tagged)
      rw [away b other, unlinked.others b notSk, counted.others b other]
    · intro t other
      rw [Cells.refcount, away t other]
      show g₂.cell.refcount t = _
      rw [unlinked.counts t, counts₁, Function.update_of_ne other]
    · refine ⟨0, ?_, ?_⟩
      · rw [before, step, last]
      · rw [if_pos rfl, Cells.refcount, gone]
        rfl
  · next more =>
    refine ⟨tagged, ?_⟩
    constructor
    · exact kept₁
    · exact counted.keeps
    · exact fun b notSk => counted.others b fun same => notSk (same ▸ tagged)
    · intro t other
      rw [counts₁, Function.update_of_ne other]
    · refine ⟨c.get32 Sk.refcount - 1, ?_, ?_⟩
      · rw [before, ← step]
      · rw [if_neg more, counts₁, Function.update_self]

end Release

end Hivex
