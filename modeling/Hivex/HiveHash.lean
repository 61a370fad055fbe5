import Hivex.HiveOffsets
import Hivex.HiveSiblings

/-! The hashes of subkey names: what the library leaves in a list entry and what the
checker in `lib/tools/visualizer.ml` recomputes from the name. -/
namespace Hivex

open ByteMemory Commands

/-- OCaml's `Char.uppercase`, which knows Latin-1. -/
def charUppercase (c : UInt8) : UInt8 :=
  if (0x61 ≤ c ∧ c ≤ 0x7a) ∨ (0xe0 ≤ c ∧ c ≤ 0xf6) ∨ (0xf8 ≤ c ∧ c ≤ 0xfe) then c - 0x20 else c

/-- The hash bytes that `check_hash` expects. -/
def checkHash (newstyleHash : Bool) (name : List UInt8) : List UInt8 :=
  if newstyleHash then
    leBytes 4 (name.foldl (fun h c => (h * 37 % 2 ^ 32 + (charUppercase c).toNat) % 2 ^ 32) 0)
  else if 4 ≤ name.length then name.take 4
  else name ++ List.replicate (4 - name.length) 0

/-- How far a sign-extended byte falls short of the unsigned one in upper case. -/
def byteGap (c : UInt8) : Nat :=
  if c < 0x80 then 0 else if charUppercase c = c then 256 else 224

/-- The weight of the bytes from 0x80 on in the hash of a name. -/
def hashGap (name : List UInt8) : Nat := name.foldl (fun gap c => gap * 37 + byteGap c) 0

section Folds

theorem hashByte_gap (c : UInt8) :
    (hashByte c + byteGap c) % 2 ^ 32 = (charUppercase c).toNat % 2 ^ 32 := by
  revert c
  decide +kernel

theorem fold_gap (name : List UInt8) : ∀ hash gap checked : Nat, (hash + gap) % 2 ^ 32 = checked % 2 ^ 32 →
    (name.foldl (fun hash c => (hash * 37 + hashByte c) % 2 ^ 32) hash +
        name.foldl (fun gap c => gap * 37 + byteGap c) gap) % 2 ^ 32 =
      name.foldl (fun h c => (h * 37 % 2 ^ 32 + (charUppercase c).toNat) % 2 ^ 32) checked % 2 ^ 32 := by
  induction name with
  | nil => exact fun hash gap checked same => same
  | cons c rest ih =>
      intro hash gap checked same
      have byte := hashByte_gap c
      simp only [List.foldl_cons]
      apply ih
      omega

theorem fold_lt (name : List UInt8) (step : Nat → UInt8 → Nat) :
    ∀ start < 2 ^ 32, name.foldl (fun h c => step h c % 2 ^ 32) start < 2 ^ 32 := by
  induction name with
  | nil => exact fun start small => small
  | cons c rest ih =>
      intro start _
      rw [List.foldl_cons]
      exact ih _ (Nat.mod_lt _ (by decide))

theorem leBytes_inj {n v w : Nat} (small : v < 256 ^ n) (small' : w < 256 ^ n)
    (same : leBytes n v = leBytes n w) : v = w := by
  have left := getLe_blit_leBytes (fun _ => 0) 0 n v
  have right := getLe_blit_leBytes (fun _ => 0) 0 n w
  rw [same, right, Nat.mod_eq_of_lt small, Nat.mod_eq_of_lt small'] at left
  exact left.symm

/-- The two foldings of a name agree when its gap vanishes modulo 2^32. -/
theorem lhHash_iff (name : CString) :
    leBytes 4 (lhHash name) = checkHash true name.bytes ↔ hashGap name.bytes % 2 ^ 32 = 0 := by
  have fold := fold_gap name.bytes 0 0 0 rfl
  have hash : lhHash name < 2 ^ 32 :=
    fold_lt name.bytes (fun hash c => hash * 37 + hashByte c) 0 (by decide)
  have checked := fold_lt name.bytes (fun h c => h * 37 % 2 ^ 32 + (charUppercase c).toNat) 0 (by decide)
  have sum : (lhHash name + hashGap name.bytes) % 2 ^ 32 = _ := fold
  rw [checkHash, if_pos rfl]
  rw [Nat.mod_eq_of_lt checked] at sum
  constructor
  · intro same
    have equal := leBytes_inj (by omega) (by omega) same
    omega
  · intro none
    congr 1
    omega

/-- Names of ASCII characters have no gap. -/
theorem hashGap_ascii {name : List UInt8} (ascii : ∀ c ∈ name, c < 0x80) : hashGap name = 0 := by
  have none : ∀ bytes : List UInt8, (∀ c ∈ bytes, c < 0x80) →
      bytes.foldl (fun gap c => gap * 37 + byteGap c) 0 = 0 := by
    intro bytes
    induction bytes with
    | nil => exact fun _ => rfl
    | cons c rest ih =>
        intro small
        have first : byteGap c = 0 := if_pos (small c (by simp))
        rw [List.foldl_cons, first]
        exact ih fun d member => small d (by simp [member])
  exact none name ascii

end Folds

section Records
variable {host : Host} {h : Hive} {lo hi : Nat} {α : Type}

def Zeroed (h : Hive) (lo hi : Nat) : Prop := ∀ i, lo ≤ i → i < hi → h.addr i = 0

/-- A program that leaves the bytes from `lo` up to `hi` alone. -/
def Spares (lo hi : Nat) (program : Command α) : Prop :=
  ∀ h, wp program (fun _ g => ∀ i, lo ≤ i → i < hi → g.addr i = h.addr i) (fun _ _ => True) h

theorem Spares.pure (value : α) : Spares lo hi (pure value : Command α) := fun _ _ _ _ => rfl

theorem Spares.bind {β : Type} {first : Command α} {next : α → Command β} (spares : Spares lo hi first)
    (continues : ∀ value, Spares lo hi (next value)) : Spares lo hi (first >>= next) := by
  intro h
  apply wp_seq (spares h)
  intro value g kept
  apply wp_mono (continues value g)
  · exact fun _ k same i lower upper => (same i lower upper).trans (kept i lower upper)
  · exact fun _ _ _ => trivial

theorem Spares.get : Spares lo hi (get : Command Hive) := fun _ _ _ _ => rfl

theorem Spares.read (query : Reader α) : Spares lo hi (read query) := by
  intro h
  apply wp_mono (read_keeps query)
  · rintro _ g ⟨-, rfl⟩ _ _ _
    rfl
  · exact fun _ _ _ => trivial

theorem Spares.assert (condition : Bool) : Spares lo hi (assert condition) := by
  intro h
  cases condition with
  | true => exact fun _ _ _ => rfl
  | false => trivial

theorem Spares.wrBytes {i : Nat} {bytes : List UInt8} (apart : i + bytes.length ≤ lo ∨ hi ≤ i) :
    Spares lo hi (wrBytes i bytes) := by
  intro h
  unfold wp Hivex.wrBytes
  split
  · next value g run =>
      split at run
      · obtain ⟨-, rfl⟩ := EStateM.Result.ok.inj run
        intro k lower upper
        exact blit_outside _ _ _ _ (by omega)
      · contradiction
  · trivial

theorem Spares.clearBit (off : Nat) : Spares lo hi (clearBit off) := by
  intro h
  unfold wp Hivex.clearBit
  split
  · next value g run =>
      split at run
      · obtain ⟨-, rfl⟩ := EStateM.Result.ok.inj run
        exact fun _ _ _ => rfl
      · contradiction
  · trivial

theorem Spares.forM {β : Type} {f : β → Command Unit} {xs : List β}
    (each : ∀ x ∈ xs, Spares lo hi (f x)) : Spares lo hi (xs.forM f) := by
  induction xs with
  | nil => exact Spares.pure ()
  | cons x rest ih =>
      show Spares lo hi (f x >>= fun _ => rest.forM f)
      apply (each x (by simp)).bind
      exact fun _ => ih fun y member => each y (by simp [member])

theorem Spares.copyKey {oldLf newLf fromPosn toPosn : Nat}
    (apart : newLf + Lf.keyOffset toPosn + 8 ≤ lo ∨ hi ≤ newLf + Lf.keyOffset toPosn) :
    Spares lo hi (copyKey oldLf newLf fromPosn toPosn) := by
  intro h
  apply wp_seq (read_keeps _)
  rintro key g ⟨found, rfl⟩
  have length : key.length = 8 := by
    unfold rdBytes at found
    split at found
    · rw [← Except.ok.inj found, slice_length]
    · contradiction
  apply Spares.wrBytes
  rw [length]
  exact apart

theorem Spares.requireValid (off : Nat) : Spares lo hi (requireValid off) :=
  (Spares.read _).bind fun _ => Spares.assert _

theorem Spares.markBlockUnused {offset : Nat} (apart : offset + 4 ≤ lo ∨ hi ≤ offset) :
    Spares lo hi (markBlockUnused offset) := by
  unfold Hivex.markBlockUnused
  apply Spares.get.bind
  intro g
  apply (Spares.assert g.writable).bind
  intro _
  apply (Spares.requireValid offset).bind
  intro _
  apply (Spares.read (blockLen offset)).bind
  intro segLen
  apply (Spares.wrBytes (by simpa using apart)).bind
  exact fun _ => Spares.clearBit _

theorem Spares.setBit (off : Nat) : Spares lo hi (setBit off) := by
  intro h
  unfold wp Hivex.setBit
  split
  · next value g run =>
      split at run
      · obtain ⟨-, rfl⟩ := EStateM.Result.ok.inj run
        exact fun _ _ _ => rfl
      · contradiction
  · trivial

theorem Spares.zeros {program : Command α} (spares : Spares lo hi program) (zero : Zeroed h lo hi) :
    wp program (fun _ g => Zeroed g lo hi) (fun _ _ => True) h := by
  apply wp_mono (spares h)
  · exact fun _ g same i lower upper => (same i lower upper).trans (zero i lower upper)
  · exact fun _ _ _ => trivial

-- Zeros that a step spares, at an allocation point that it keeps.
theorem Spares.zeroed {program : Command α} {b : Nat} (spares : Spares lo hi program)
    (quiet : Quiet program) (zero : Zeroed h lo hi) (start : h.endblocks = b) :
    wp program (fun _ g => Zeroed g lo hi ∧ g.endblocks = b) (fun _ _ => True) h := by
  apply wp_mono (wp_and (spares.zeros zero) (quiet h))
  · rintro _ g ⟨kept, room, -⟩
    exact ⟨kept, (congrArg Room.endblocks room).trans start⟩
  · exact fun _ _ _ => trivial

theorem wrFill_zeroed (base count : Nat) :
    wp (wrFill base count) (fun _ g => Zeroed g base (base + count) ∧ g.endblocks = h.endblocks)
      (fun _ _ => True) h := by
  unfold wp wrFill
  split
  · next value g run =>
      split at run
      · obtain ⟨-, rfl⟩ := EStateM.Result.ok.inj run
        constructor
        · exact fun i lower upper => fill_inside _ _ _ _ _ lower upper
        · rfl
      · contradiction
  · trivial

theorem placeBlock_zeroed (segLen : Nat) (id : List UInt8) :
    wp (placeBlock segLen id)
      (fun b g => b = h.endblocks ∧ Zeroed g (b + 4 + id.length) (b + segLen)) (fun _ _ => True) h := by
  unfold placeBlock
  apply (wp_bind _ _ _).mpr
  apply (wp_get _).mpr
  set b := h.endblocks
  apply wp_seq (wrFill_zeroed b segLen)
  rintro _ g ⟨zero, start⟩
  have behind : Zeroed g (b + 4 + id.length) (b + segLen) :=
    fun i lower upper => zero i (by omega) upper
  have word : Spares (b + 4 + id.length) (b + segLen) (wr32 b (2 ^ 32 - segLen)) :=
    Spares.wrBytes (Or.inl (by rw [leBytes_length]; omega))
  apply wp_seq (word.zeroed (Quiet.wrBytes _ _) behind start)
  rintro _ g₁ ⟨zero₁, start₁⟩
  have idBytes : Spares (b + 4 + id.length) (b + segLen) (wrBytes (b + 4) id) :=
    Spares.wrBytes (Or.inl (Nat.le_refl _))
  apply wp_seq (idBytes.zeroed (Quiet.wrBytes _ _) zero₁ start₁)
  rintro _ g₂ ⟨zero₂, start₂⟩
  apply wp_seq ((Spares.setBit b).zeroed (Quiet.setBit b) zero₂ start₂)
  rintro _ g₃ ⟨zero₃, start₃⟩
  apply (wp_bind _ _ _).mpr
  apply (wp_modify _ _).mpr
  apply (wp_bind _ _ _).mpr
  apply (wp_get _).mpr
  dsimp only
  split
  · have free : ∀ k : Hive, k.endblocks = b + segLen → Zeroed k (b + 4 + id.length) (b + segLen) →
        wp (do
          assert (decide ((k.endpages : Int) - k.endblocks ≥ 4))
          wr32 k.endblocks ((k.endpages : Int) - k.endblocks).toNat
          return b) (fun b' k' => b' = b ∧ Zeroed k' (b' + 4 + id.length) (b' + segLen))
          (fun _ _ => True) k := by
      intro k start' zero'
      apply wp_seq ((Spares.assert _).zeroed (Quiet.assert _) zero' start')
      rintro _ k' ⟨zero'', start''⟩
      have header : Spares (b + 4 + id.length) (b + segLen)
          (wr32 k.endblocks ((k.endpages : Int) - k.endblocks).toNat) :=
        Spares.wrBytes (Or.inr (by omega))
      apply wp_seq (header.zeroed (Quiet.wrBytes _ _) zero'' start'')
      exact fun _ _ done => ⟨rfl, done.1⟩
    have behind₃ : ({ g₃ with endblocks := g₃.endblocks + segLen } : Hive).endblocks = b + segLen :=
      congrArg (· + segLen) start₃
    exact free _ behind₃ zero₃
  · exact ⟨rfl, zero₃⟩

theorem allocatePage_offset (hint : Nat) :
    wp (allocatePage host hint) (fun b _ => b = h.endpages + 0x20) (fun _ _ => True) h := by
  apply wp_mono (allocatePage_decides hint)
  · rintro b g ⟨granted, -⟩
    exact Room.page_endblocks granted
  · exact fun _ _ _ => trivial

/-- The place of a new block and its bytes behind the length and the id. -/
theorem allocateBlock_zeroed {segLen : Nat} {id : List UInt8} :
    wp (allocateBlock host segLen id)
      (fun b g => (h.endblocks ≠ 0 ∧ b = h.endblocks ∨ b = h.endpages + 0x20) ∧
        Zeroed g (b + 4 + id.length) (b + (segLen + 7) / 8 * 8)) (fun _ _ => True) h := by
  unfold allocateBlock
  apply (wp_bind _ _ _).mpr
  apply (wp_get _).mpr
  dsimp only
  split
  · trivial
  · split
    · trivial
    · split
      · trivial
      · apply (wp_bind _ _ _).mpr
        apply (wp_get _).mpr
        split
        · apply wp_seq (allocatePage_offset _)
          rintro newendblocks g rfl
          apply (wp_bind _ _ _).mpr
          apply (wp_modify _ _).mpr
          apply wp_mono (placeBlock_zeroed _ _)
          · rintro b k ⟨rfl, zero⟩
            exact ⟨Or.inr rfl, zero⟩
          · exact fun _ _ _ => trivial
        · next fits =>
            apply wp_mono (placeBlock_zeroed _ _)
            · rintro b k ⟨rfl, zero⟩
              exact ⟨Or.inl ⟨fun none => fits (Or.inl none), rfl⟩, zero⟩
            · exact fun _ _ _ => trivial

theorem Sound.block_before (sound : Sound h) {old b : Nat} (valid : h.valid old = true)
    (place : h.endblocks ≠ 0 ∧ b = h.endblocks ∨ b = h.endpages + 0x20) : old + 4 ≤ b := by
  obtain ⟨c, found⟩ := cell_of_valid valid
  have long := (sound.cell_bounds found).2.2.1
  rcases place with ⟨placed, rfl⟩ | rfl
  · have before := sound.cell_before found
    rw [Hive.frontier, if_neg placed] at before
    omega
  · obtain ⟨pages, laid, -⟩ := sound
    have inside := (laid.cell_inside found).2.2.2.1
    omega

/-- What four zeroed bytes hold once `bytes` are stored at their start. -/
def padded (bytes : List UInt8) : List UInt8 := bytes ++ List.replicate (4 - bytes.length) 0

theorem wrBytes_padded {bytes : List UInt8} (short : bytes.length ≤ 4) (zero : Zeroed h lo (lo + 4)) :
    wp (wrBytes lo bytes) (fun _ g => slice g.addr lo 4 = padded bytes) (fun _ _ => True) h := by
  unfold wp wrBytes
  split
  · next value g run =>
      split at run
      · obtain ⟨-, rfl⟩ := EStateM.Result.ok.inj run
        apply List.ext_getElem
        · rw [padded, List.length_append, List.length_replicate, slice_length]
          omega
        · intro k left right
          rw [slice_length] at left
          simp only [slice, List.getElem_map, List.getElem_range]
          by_cases stored : k < bytes.length
          · simp only [padded, List.getElem_append_left stored]
            exact blit_inside _ _ _ _ stored
          · simp only [padded, List.getElem_append_right (Nat.le_of_not_lt stored),
              List.getElem_replicate]
            exact (blit_outside _ _ _ _ (by omega)).trans (zero (lo + k) (by omega) (by omega))
      · contradiction
  · trivial

theorem calcHash_length (id : List UInt8) (name : CString) : (calcHash id name).length ≤ 4 := by
  unfold calcHash
  split
  · rw [List.length_take]
    omega
  · rw [leBytes_length]

theorem padded_leBytes (v : Nat) : padded (leBytes 4 v) = leBytes 4 v := by
  simp [padded]

theorem calcHash_lf (name : CString) : padded (calcHash Lf.idLf name) = checkHash false name.bytes := by
  have short : ¬(false : Bool) = true := by decide
  rw [calcHash, if_pos rfl, checkHash, if_neg short, padded]
  split
  · next long => simp [List.length_take, Nat.min_eq_left long]
  · next rest =>
      have whole : name.bytes.take 4 = name.bytes := List.take_of_length_le (by omega)
      rw [whole]

theorem calcHash_lh (name : CString) :
    padded (calcHash Lf.idLh name) = checkHash true name.bytes ↔ hashGap name.bytes % 2 ^ 32 = 0 := by
  have other : ¬Lf.idLh = Lf.idLf := by decide
  rw [calcHash, if_neg other, padded_leBytes]
  exact lhHash_iff name

theorem slice_spared {program : Command α} {bytes : List UInt8} (spares : Spares lo (lo + 4) program)
    (stored : slice h.addr lo 4 = bytes) :
    wp program (fun _ g => slice g.addr lo 4 = bytes) (fun _ _ => True) h := by
  apply wp_mono (spares h)
  · intro _ g same
    apply Eq.trans _ stored
    apply slice_congr
    exact fun k inside => same (lo + k) (by omega) (by omega)
  · exact fun _ _ _ => trivial

theorem newLhRecord_hash (name : CString) (node : Nat) :
    wp (newLhRecord host name node)
      (fun lh g => slice g.addr (lh + Lf.keyHash 0) 4 = padded (calcHash Lf.idLh name))
      (fun _ _ => True) h := by
  unfold newLhRecord
  apply wp_seq allocateBlock_zeroed
  rintro lh g ⟨-, zero⟩
  simp only [Lf.sizeof, Lf.idLh, List.length_cons, List.length_nil] at zero
  simp only [Lf.keyHash, Lf.keyOffset, Lf.nrKeys]
  have entry : Zeroed g (lh + 12) (lh + 12 + 4) :=
    fun i lower upper => zero i (by omega) (by omega)
  have count : Spares (lh + 12) (lh + 12 + 4) (wr16 (lh + 6) 1) :=
    Spares.wrBytes (by rw [leBytes_length]; omega)
  have offset : Spares (lh + 12) (lh + 12 + 4) (wr32 (lh + 8) (node - 0x1000)) :=
    Spares.wrBytes (by rw [leBytes_length]; omega)
  apply wp_seq (count.zeros entry)
  intro _ g₁ zero₁
  apply wp_seq (offset.zeros zero₁)
  intro _ g₂ zero₂
  apply wp_seq (wrBytes_padded (calcHash_length _ _) zero₂)
  exact fun _ _ stored => stored

theorem assert_keeps (condition : Bool) :
    wp (assert condition) (fun _ g => condition = true ∧ g = h) (fun _ _ => True) h := by
  cases condition with
  | true => exact ⟨rfl, rfl⟩
  | false => trivial

theorem requireValid_keeps (off : Nat) :
    wp (requireValid off) (fun _ g => h.valid off = true ∧ g = h) (fun _ _ => True) h := by
  unfold requireValid
  apply wp_seq (read_keeps _)
  rintro valid _ ⟨found, rfl⟩
  rw [isValidBlock_view] at found
  rw [Except.ok.inj found]
  exact assert_keeps valid

/-- The entry of the new record, written among the copies of the old ones. -/
theorem insertLfRecord_hash (sound : Sound h) {old posn n : Nat}
    (count : rd16 old Lf.nrKeys h.view = .ok n) (inside : posn ≤ n) (name : CString) (node : Nat) :
    wp (insertLfRecord host old posn name node)
      (fun new g => ∃ id, rdBytes old 4 2 h.view = .ok id ∧ (id = Lf.idLf ∨ id = Lf.idLh) ∧
        slice g.addr (new + Lf.keyHash posn) 4 = padded (calcHash id name))
      (fun _ _ => True) h := by
  unfold insertLfRecord
  apply wp_seq (requireValid_keeps old)
  rintro _ _ ⟨valid, rfl⟩
  apply wp_seq (read_keeps _)
  rintro id _ ⟨found, rfl⟩
  apply wp_seq (assert_keeps _)
  rintro _ _ ⟨known, rfl⟩
  have known := of_decide_eq_true known
  have idLength : id.length = 2 := by
    rcases known with rfl | rfl
    · rfl
    · rfl
  apply wp_seq (read_keeps _)
  rintro nrKeys k ⟨stored, rfl⟩
  rw [count] at stored
  obtain rfl := Except.ok.inj stored
  apply wp_seq allocateBlock_zeroed
  rintro new g ⟨place, zero⟩
  have before := Sound.block_before sound valid place
  simp only [Lf.sizeof, idLength, Nat.add_sub_cancel] at zero
  simp only [Lf.keyHash, Lf.keyOffset, Lf.nrKeys]
  set entry := new + (12 + 8 * posn) with entryEq
  have apart : Zeroed g entry (entry + 4) := fun i lower upper => zero i (by omega) (by omega)
  have countWord : Spares entry (entry + 4) (wr16 (new + 6) (n + 1)) :=
    Spares.wrBytes (by rw [leBytes_length]; omega)
  have earlier : Spares entry (entry + 4) ((List.range posn).forM fun i => copyKey old new i i) := by
    apply Spares.forM
    intro i member
    rw [List.mem_range] at member
    apply Spares.copyKey
    simp only [Lf.keyOffset]
    omega
  have offset : Spares entry (entry + 4) (wr32 (new + (8 + 8 * posn)) (node - 0x1000)) :=
    Spares.wrBytes (by rw [leBytes_length]; omega)
  have later : Spares entry (entry + 4)
      ((List.range' (posn + 1) (n + 1 - (posn + 1))).forM fun i => copyKey old new (i - 1) i) := by
    apply Spares.forM
    intro i member
    rw [List.mem_range'_1] at member
    apply Spares.copyKey
    simp only [Lf.keyOffset]
    omega
  have released : Spares entry (entry + 4) (markBlockUnused old) :=
    Spares.markBlockUnused (by omega)
  apply wp_seq (countWord.zeros apart)
  intro _ g₁ zero₁
  apply wp_seq (earlier.zeros zero₁)
  intro _ g₂ zero₂
  apply wp_seq (offset.zeros zero₂)
  intro _ g₃ zero₃
  apply wp_seq (wrBytes_padded (calcHash_length _ _) zero₃)
  intro _ g₄ stored₄
  apply wp_seq (slice_spared later stored₄)
  intro _ g₅ stored₅
  apply wp_seq (slice_spared released stored₅)
  exact fun _ g₆ stored₆ => ⟨id, found, known, stored₆⟩

/-- The four hash bytes of an entry. -/
def entryHash (h : Hive) (lf posn : Nat) : List UInt8 := slice h.addr (lf + Lf.keyHash posn) 4

/-- `LeavesHash host name node h newstyle hash`: one of the two writers of entries, called for
`name` on `h`, leaves `hash` in the entry of a record that is an lh-record if `newstyle`. -/
inductive LeavesHash (host : Host) (name : CString) (node : Nat) (h : Hive) : Bool → List UInt8 → Prop
  | created {g : Hive} {lh : Nat} (run : newLhRecord host name node h = .ok lh g) :
      LeavesHash host name node h true (entryHash g lh 0)
  | inserted {g : Hive} {old posn new n : Nat} {id : List UInt8}
      (run : insertLfRecord host old posn name node h = .ok new g)
      (kind : rdBytes old 4 2 h.view = .ok id) (count : rd16 old Lf.nrKeys h.view = .ok n)
      (inside : posn ≤ n) : LeavesHash host name node h (decide (id = Lf.idLh)) (entryHash g new posn)

/-- The checker expects the bytes that are left in an lf-record; in an lh-record it
expects them exactly of the names without a gap. -/
theorem leaves_checked {name : CString} {node : Nat} {newstyle : Bool} {hash : List UInt8}
    (sound : Sound h) (leaves : LeavesHash host name node h newstyle hash) :
    hash = checkHash newstyle name.bytes ↔ newstyle = false ∨ hashGap name.bytes % 2 ^ 32 = 0 := by
  have left : ∃ id, (id = Lf.idLf ∨ id = Lf.idLh) ∧ newstyle = decide (id = Lf.idLh) ∧
      hash = padded (calcHash id name) := by
    cases leaves with
    | created run =>
        have stored := @newLhRecord_hash host h name node
        rw [wp, run] at stored
        exact ⟨Lf.idLh, Or.inr rfl, rfl, stored⟩
    | inserted run kind count inside =>
        have stored := @insertLfRecord_hash host h sound _ _ _ count inside name node
        rw [wp, run] at stored
        obtain ⟨id, found, known, same⟩ := stored
        rw [kind] at found
        obtain rfl := Except.ok.inj found
        exact ⟨_, known, rfl, same⟩
  obtain ⟨id, known, rfl, rfl⟩ := left
  rcases known with rfl | rfl
  · constructor
    · exact fun _ => Or.inl rfl
    · exact fun _ => calcHash_lf name
  · constructor
    · exact fun same => Or.inr ((calcHash_lh name).mp same)
    · rintro (older | even)
      · exact absurd older.symm Bool.false_ne_true
      · exact (calcHash_lh name).mpr even

end Records

theorem minimal_created : ∃ hash, LeavesHash ampleHost nameA 0x1020 minimal true hash ∧
    (hash = checkHash true nameA.bytes ↔ (true : Bool) = false ∨ hashGap nameA.bytes % 2 ^ 32 = 0) := by
  have created : succeeds (newLhRecord ampleHost nameA 0x1020 minimal) = true := by decide +kernel
  cases run : newLhRecord ampleHost nameA 0x1020 minimal with
  | error reason g =>
      rw [run] at created
      exact absurd created Bool.false_ne_true
  | ok lh g => exact ⟨_, .created run, leaves_checked minimal_sound (.created run)⟩

/-- The letter é in Latin-1. -/
def nameEAcute : CString := ⟨[0xe9], by simp⟩

theorem accented_differs : ∃ hash, LeavesHash ampleHost nameEAcute 0x1020 minimal true hash ∧
    hash ≠ checkHash true nameEAcute.bytes := by
  have created : succeeds (newLhRecord ampleHost nameEAcute 0x1020 minimal) = true := by decide +kernel
  cases run : newLhRecord ampleHost nameEAcute 0x1020 minimal with
  | error reason g =>
      rw [run] at created
      exact absurd created Bool.false_ne_true
  | ok lh g =>
      have stored := @newLhRecord_hash ampleHost minimal nameEAcute 0x1020
      rw [wp, run] at stored
      refine ⟨_, .created run, ?_⟩
      rw [entryHash, stored]
      exact fun same => absurd ((calcHash_lh nameEAcute).mp same) (by decide)

end Hivex
