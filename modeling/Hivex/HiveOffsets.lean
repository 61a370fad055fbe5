import Hivex.HiveEndian

/-! Offsets are 64 bits wide in memory and 32 bits wide in the image. Where the blocks
that a call gets start below 4 GiB and a page, no offset it stores is cut; nothing
in the code keeps them there. -/
namespace Hivex

open ByteMemory Commands

/-- The first offset that does not fit a field, which counts from 0x1000. -/
abbrev offsetLimit : Nat := 2 ^ 32 + 0x1000

/-- Stops with `stop` before the first stored offset that is cut. -/
def checked (stop : Stop) : Platform where
  word := id
  half := id
  raw := pure ()
  offset := fun v => if v < 2 ^ 32 then pure () else throw stop

/-- The call stores an offset that is cut: a run that stops there for any reason
stops for that reason. -/
def Wraps (host : Host) (call : WriteCall) (h : Hive) : Prop :=
  ∀ stop, ∃ g, call.run (checked stop) host h = .error stop g

/-- The blocks that `requests` get, one after the other, start below the limit. -/
def Fits (host : Host) : Room → List Nat → Prop
  | _, [] => True
  | room, segLen :: rest => ∀ room', room.block host segLen = .ok room' →
      room'.endblocks - (segLen + 7) / 8 * 8 < offsetLimit ∧ Fits host room' rest

section Passing
variable {host : Host} {h : Hive} {stop : Stop}

theorem checked_watches (alarm : Stop) : Watches alarm (checked alarm) onLittle where
  raw := Or.inr ⟨rfl, rfl, rfl⟩
  offset := by
    intro v
    by_cases fits : v < 2 ^ 32
    · right
      exact if_pos fits
    · left
      exact if_neg fits

theorem checked_storeOffset {i v : Nat} (fits : v < 2 ^ 32) :
    (checked stop).storeOffset i v = wr32 i v := by
  have passes : (checked stop).offset v = pure () := if_pos fits
  rw [Platform.storeOffset, passes]
  rfl

theorem checked_cut {i v : Nat} (past : ¬v < 2 ^ 32) :
    (checked stop).storeOffset i v h = .error stop h := by
  have stops : (checked stop).offset v = throw stop := if_neg past
  rw [Platform.storeOffset, stops]
  rfl

theorem checked_writePage {pages : Nat} (small : h.endpages < offsetLimit) :
    (checked stop).writePage pages h = writePage pages h := by
  have limit : offsetLimit = 2 ^ 32 + 0x1000 := rfl
  have fits : h.endpages - 0x1000 < 2 ^ 32 := by omega
  rw [Platform.writePage, writePage, get_then, get_then, modify_then, modify_then,
    checked_storeOffset fits]

theorem growImage_endpages (newsize : Nat) :
    wp (growImage host newsize) (fun _ g => g.endpages = h.endpages) (fun _ _ => True) h := by
  unfold wp growImage
  split
  · next value g run =>
      split at run
      · split at run
        · obtain ⟨-, rfl⟩ := EStateM.Result.ok.inj run
          rfl
        · contradiction
      · contradiction
  · trivial

theorem growImage_granted {hint : Nat}
    (grown : ∃ g, growImage host (h.endpages + (1 + (hint + 31) / 4096) * 4096) h = .ok () g) :
    ∃ room, h.room.page host hint = .ok room := by
  obtain ⟨g, run⟩ := grown
  unfold growImage at run
  split at run
  · next granted =>
      split at run
      · next bitmap =>
          simp only [Room.page, Hive.room, granted, bitmap, if_true]
          split
          · exact ⟨_, rfl⟩
          · exact ⟨_, rfl⟩
      · contradiction
  · contradiction

theorem checked_allocatePage {hint : Nat}
    (small : ∀ room, h.room.page host hint = .ok room → h.endpages < offsetLimit) :
    (checked stop).allocatePage host hint h = allocatePage host hint h := by
  unfold Platform.allocatePage allocatePage
  rw [get_then, get_then]
  simp only [Hbin.sizeof, Nat.add_succ_sub_one]
  set newsize := h.endpages + (1 + (hint + 31) / 4096) * 4096 with newsizeEq
  split
  · next growth =>
      have whole : h.size + ((newsize : Int) - (h.size : Int)).toNat = newsize := by omega
      rw [whole]
      cases grown : growImage host newsize h with
      | error reason g => rw [run_error grown, run_error grown]
      | ok value g =>
          obtain ⟨room, granted⟩ := growImage_granted ⟨g, grown⟩
          have kept : g.endpages = h.endpages := by
            have holds := @growImage_endpages host h newsize
            rw [wp, grown] at holds
            exact holds
          rw [run_ok grown, run_ok grown]
          apply checked_writePage
          rw [kept]
          exact small room granted
  · next slack =>
      apply checked_writePage
      apply small ⟨h.size, newsize, h.endpages + 0x20⟩
      have fits : ¬h.size < newsize := by omega
      simp only [Room.page, Hive.room, ← newsizeEq, fits, if_false]

theorem placeBlock_offset {segLen : Nat} {id : List UInt8} :
    wp (placeBlock segLen id) (fun b g => b + segLen = g.endblocks) (fun _ _ => True) h := by
  have start : wp (placeBlock segLen id) (fun b _ => b = h.endblocks) (fun _ _ => True) h := by
    apply (wp_bind _ _ _).mpr
    apply (wp_get _).mpr
    apply wp_seq (wp_any _ _)
    intro _ _ _
    apply wp_seq (wp_any _ _)
    intro _ _ _
    apply wp_seq (wp_any _ _)
    intro _ _ _
    apply wp_seq (wp_any _ _)
    intro _ _ _
    apply wp_seq (wp_any _ _)
    intro _ _ _
    apply wp_seq (wp_any _ _)
    intro g _ _
    dsimp only
    split
    · apply wp_seq (wp_any _ _)
      intro _ _ _
      apply wp_seq (wp_any _ _)
      exact fun _ _ _ => rfl
    · rfl
  have room : wp (placeBlock segLen id) _ _ h := placeBlock_room h
  apply wp_mono (wp_and start room)
  · rintro b g ⟨rfl, room, -⟩
    exact (congrArg Room.endblocks room).symm
  · exact fun _ _ _ => trivial

/-- `allocate_block` gives the block before the new end of blocks. -/
theorem allocateBlock_offset {segLen : Nat} {id : List UInt8} :
    wp (allocateBlock host segLen id) (fun b g => b + (segLen + 7) / 8 * 8 = g.endblocks)
      (fun _ _ => True) h := by
  unfold allocateBlock
  apply (wp_bind _ _ _).mpr
  apply (wp_get _).mpr
  dsimp only
  split
  · trivial
  · split
    · trivial
    · split
      · trivial
      · apply (wp_bind _ _ _).mpr
        apply (wp_get _).mpr
        split
        · apply wp_seq (wp_any _ _)
          intro _ _ _
          apply (wp_bind _ _ _).mpr
          apply (wp_modify _ _).mpr
          exact placeBlock_offset
        · exact placeBlock_offset

theorem fail_then {α β : Type} (code : Errno) (next : α → Command β) :
    (fail code >>= next) h = .error (.errno code) h := rfl

theorem Room.page_endblocks {room room' : Room} {len : Nat} (granted : room.page host len = .ok room') :
    room'.endblocks = room.endpages + 0x20 := by
  unfold Room.page at granted
  dsimp only at granted
  split at granted
  · split at granted
    · split at granted
      · rw [← Except.ok.inj granted]
      · contradiction
    · contradiction
  · rw [← Except.ok.inj granted]

-- A block that needs a page starts behind the header of that page.
theorem Fits.page {segLen : Nat} {rest : List Nat} (fits : Fits host h.room (segLen :: rest))
    (short : ¬segLen < 4) (long : ¬segLen > hiveMaxAllocation)
    (full : h.endblocks = 0 ∨ h.endblocks + (segLen + 7) / 8 * 8 > h.endpages) :
    ∀ room, h.room.page host ((segLen + 7) / 8 * 8) = .ok room → h.endpages < offsetLimit := by
  intro room granted
  have limit : offsetLimit = 2 ^ 32 + 0x1000 := rfl
  have taken : h.room.block host segLen =
      .ok { room with endblocks := room.endblocks + (segLen + 7) / 8 * 8 } := by
    have sized : ¬(segLen < 4 ∨ hiveMaxAllocation < segLen) := not_or.mpr ⟨short, long⟩
    have page : h.room.endblocks = 0 ∨ h.room.endblocks + (segLen + 7) / 8 * 8 > h.room.endpages := full
    rw [Room.block, if_neg sized]
    dsimp only
    rw [if_pos page, granted]
    rfl
  have start := (fits _ taken).1
  have behind : room.endblocks = h.endpages + 0x20 := Room.page_endblocks granted
  dsimp only at start
  omega

theorem checked_allocateBlock {segLen : Nat} {id : List UInt8} {rest : List Nat}
    (fits : Fits host h.room (segLen :: rest)) :
    (checked stop).allocateBlock host segLen id h = allocateBlock host segLen id h := by
  unfold Platform.allocateBlock allocateBlock
  rw [get_then, get_then]
  dsimp only
  split
  · rw [fail_then, fail_then]
  · split
    · rw [fail_then, fail_then]
    · split
      · rw [fail_then, fail_then]
      · next short long =>
          rw [get_then, get_then]
          split
          · next full =>
              apply run_same (checked_allocatePage (fits.page short long full)) (wp_any _ _)
              exact fun _ _ _ => rfl
          · rfl

/-- What an allocation that fits gives: the same block on both, below the limit. -/
theorem Fits.allocate {segLen : Nat} {rest : List Nat} (fits : Fits host h.room (segLen :: rest))
    (writable : h.writable = true) (id : List UInt8) :
    (checked stop).allocateBlock host segLen id h = allocateBlock host segLen id h ∧
      wp (allocateBlock host segLen id)
        (fun b g => b < offsetLimit ∧ Fits host g.room rest ∧ g.writable = true)
        (fun _ _ => True) h := by
  constructor
  · exact checked_allocateBlock fits
  · apply wp_mono (wp_and allocateBlock_offset (allocateBlock_decides writable))
    · rintro b g ⟨offset, taken, kept⟩
      obtain ⟨start, later⟩ := fits g.room taken
      have ends : g.room.endblocks = g.endblocks := rfl
      exact ⟨by omega, later, kept⟩
    · exact fun _ _ _ => trivial

end Passing

section Values
variable {host : Host} {h : Hive} {stop : Stop}

theorem quiet_same {α β : Type} {first : Command α} {next next' : α → Command β}
    (quiet : Quiet first) (continues : ∀ value g, g.room = h.room → g.writable = h.writable →
      next value g = next' value g) : (first >>= next) h = (first >>= next') h := by
  apply run_same rfl (wp_mono (quiet h) (fun _ _ kept => kept) fun _ _ _ => trivial)
  exact fun value g kept => continues value g kept.1 kept.2

theorem Fits.append {front back : List Nat} : ∀ {room : Room}, Fits host room (front ++ back) ↔
    Fits host room front ∧ ∀ room', room.blocks host front = .ok room' → Fits host room' back := by
  induction front with
  | nil =>
      intro room
      constructor
      · intro fits
        exact ⟨trivial, fun room' same => Except.ok.inj same ▸ fits⟩
      · exact fun both => both.2 room rfl
  | cons segLen front ih =>
      intro room
      have split : ∀ room'' room', room.block host segLen = .ok room'' →
          (room.blocks host (segLen :: front) = .ok room' ↔ room''.blocks host front = .ok room') := by
        intro room'' room' taken
        rw [Room.blocks, List.foldlM_cons, taken]
        rfl
      constructor
      · intro fits
        constructor
        · intro room'' taken
          exact ⟨(fits room'' taken).1, (ih.mp (fits room'' taken).2).1⟩
        · intro room' granted
          cases taken : room.block host segLen with
          | error reason =>
              rw [Room.blocks, List.foldlM_cons, taken] at granted
              contradiction
          | ok room'' =>
              exact (ih.mp (fits room'' taken).2).2 room' ((split room'' room' taken).mp granted)
      · rintro ⟨front, back⟩ room'' taken
        obtain ⟨start, later⟩ := front room'' taken
        exact ⟨start, ih.mpr ⟨later, fun room' granted =>
          back room' ((split room'' room' taken).mpr granted)⟩⟩

theorem checked_newVkRecord {val : SetValue} {rest : List Nat}
    (fits : Fits host h.room ((Vk.sizeof + val.key.strlen) :: rest)) (writable : h.writable = true)
    (vallistOffs i : Nat) :
    (checked stop).newVkRecord host vallistOffs i val h = newVkRecord host vallistOffs i val h := by
  obtain ⟨same, gives⟩ := @Fits.allocate host h stop _ _ fits writable Vk.id
  have limit : offsetLimit = 2 ^ 32 + 0x1000 := rfl
  rw [← little_newVkRecord]
  unfold Platform.newVkRecord
  apply run_same same gives
  rintro vkOffs g ⟨below, -, -⟩
  rw [checked_storeOffset (by omega : vkOffs - 0x1000 < 2 ^ 32)]
  rfl

theorem checked_storeData {value : List UInt8} (fits : Fits host h.room (dataRequests value))
    (writable : h.writable = true) (vkOffs : Nat) :
    (checked stop).storeData host vkOffs value h = storeData host vkOffs value h := by
  unfold Platform.storeData storeData
  unfold dataRequests at fits
  split
  · rfl
  · next long =>
      rw [if_neg long] at fits
      obtain ⟨same, gives⟩ := @Fits.allocate host h stop _ _ fits writable []
      have limit : offsetLimit = 2 ^ 32 + 0x1000 := rfl
      apply run_same same gives
      rintro offs g ⟨below, -, -⟩
      rw [checked_storeOffset (by omega : offs - 0x1000 < 2 ^ 32)]

theorem checked_setOneValue {val : SetValue} (fits : Fits host h.room val.requests)
    (writable : h.writable = true) (node vallistOffs i : Nat) :
    (checked stop).setOneValue host node vallistOffs i val h =
      setOneValue host node vallistOffs i val h := by
  have parts : Fits host h.room ([Vk.sizeof + val.key.strlen] ++ dataRequests val.value) := fits
  obtain ⟨record, data⟩ := Fits.append.mp parts
  unfold Platform.setOneValue setOneValue
  apply run_same (checked_newVkRecord record writable vallistOffs i)
    (wp_mono (newVkRecord_decided writable vallistOffs i val) (fun _ _ done => done) fun _ _ _ => trivial)
  rintro vkOffs g ⟨room, kept⟩
  apply run_same (checked_storeData (data g.room room) kept vkOffs) (wp_any _ _)
  exact fun _ _ _ => rfl

theorem checked_setEachValue (node vallistOffs : Nat) (values : List (SetValue × Nat)) :
    ∀ {h : Hive}, Fits host h.room (values.flatMap fun entry => entry.1.requests) →
      h.writable = true →
      (values.forM fun (val, i) => (checked stop).setOneValue host node vallistOffs i val) h =
        (values.forM fun (val, i) => setOneValue host node vallistOffs i val) h := by
  induction values with
  | nil =>
      intro h _ _
      show (pure () : Command Unit) h = (pure () : Command Unit) h
      rfl
  | cons entry rest ih =>
      intro h fits writable
      obtain ⟨first, later⟩ := Fits.append.mp fits
      apply run_same (checked_setOneValue first writable node vallistOffs entry.2)
        (wp_mono (setOneValue_decided writable node vallistOffs entry.2 entry.1) (fun _ _ done => done)
          fun _ _ _ => trivial)
      exact fun _ g done => ih (later g.room done.1) done.2

theorem checked_storeValues {values : List SetValue} (fits : Fits host h.room (arrayRequests values))
    (writable : h.writable = true) (node : Nat) :
    (checked stop).storeValues host node values h = storeValues host node values h := by
  have each : values.zipIdx.flatMap (fun entry => entry.1.requests) =
      values.flatMap SetValue.requests := by
    conv_rhs => rw [← List.zipIdx_map_fst 0 values, List.flatMap_map]
  have limit : offsetLimit = 2 ^ 32 + 0x1000 := rfl
  unfold arrayRequests at fits
  rw [← each] at fits
  obtain ⟨same, gives⟩ := @Fits.allocate host h stop _ _ fits writable []
  unfold Platform.storeValues storeValues
  apply run_same same gives
  rintro vallistOffs g ⟨below, later, kept⟩
  rw [checked_storeOffset (by omega : vallistOffs - 0x1000 < 2 ^ 32)]
  apply quiet_same (Quiet.wrBytes _ _)
  intro _ g₁ room₁ kept₁
  apply quiet_same (Quiet.wrBytes _ _)
  intro _ g₂ room₂ kept₂
  apply checked_setEachValue
  · rw [room₂, room₁]
    exact later
  · rw [kept₂, kept₁, kept]

theorem read_keeps {α : Type} (query : Reader α) :
    wp (read query) (fun value g => query h.view = .ok value ∧ g = h) (fun _ _ => True) h := by
  apply (wp_look _ _ _).mpr
  unfold Ends
  split
  · next value found => exact ⟨found, rfl⟩
  · trivial

-- Freeing the old values takes no room.
theorem deleteValues_room (writable : h.writable = true) (node : Nat) :
    wp (deleteValues node)
      (fun _ g => (∃ old, getValues node h.view = .ok old) ∧ g.room = h.room ∧ g.writable = h.writable)
      (fun _ _ => True) h := by
  unfold deleteValues
  apply (wp_bind _ _ _).mpr
  apply (wp_get _).mpr
  rw [writable]
  apply wp_seq (read_keeps (getValues node))
  rintro ⟨values, blocks⟩ g ⟨found, rfl⟩
  have frees : Quiet (blocks.forM markBlockUnused >>= fun _ => values.forM deleteValue >>= fun _ =>
      wr32 (node + Nk.nrValues) 0 >>= fun _ => wr32 (node + Nk.vallist) 0xffffffff) := by
    apply (Quiet.forM _ Quiet.markBlockUnused blocks).bind
    intro _
    apply (Quiet.forM _ Quiet.deleteValue values).bind
    intro _
    exact (Quiet.wrBytes _ _).bind fun _ => Quiet.wrBytes _ _
  apply wp_mono (frees g)
  · exact fun _ k kept => ⟨⟨_, found⟩, kept.1, kept.2.trans writable⟩
  · exact fun _ _ _ => trivial

theorem read_same {α β : Type} {query : Reader α} {next next' : α → Command β}
    (continues : ∀ value, query h.view = .ok value → next value h = next' value h) :
    (read query >>= next) h = (read query >>= next') h := by
  apply run_same rfl (read_keeps query)
  rintro value g ⟨found, rfl⟩
  exact continues value found

theorem get_same {β : Type} {next next' : Hive → Command β} (continues : next h h = next' h h) :
    (get >>= next) h = (get >>= next') h := by
  rw [get_then, get_then]
  exact continues

theorem guard_same {β : Type} {condition : Prop} [Decidable condition] {code : Errno}
    {next next' : Unit → Command β} (continues : ¬condition → next () h = next' () h) :
    (if condition then fail code >>= next else next ()) h =
      (if condition then fail code >>= next' else next' ()) h := by
  split
  · rw [fail_then, fail_then]
  · next passes => exact continues passes

theorem checked_hivexNodeSetValues {node : Nat} {values : List SetValue}
    (fits : h.writable = true → (∃ old, getValues node h.view = .ok old) → values ≠ [] →
      Fits host h.room (arrayRequests values)) :
    (checked stop).hivexNodeSetValues host node values h = hivexNodeSetValues host node values h := by
  unfold Platform.hivexNodeSetValues hivexNodeSetValues
  apply get_same
  apply guard_same
  intro write
  have writable : h.writable = true := by simpa using write
  apply read_same
  intro _ _
  apply run_same rfl (deleteValues_room writable node)
  rintro _ g ⟨old, room, kept⟩
  split
  · rfl
  · next filled =>
      apply checked_storeValues _ (kept.trans writable)
      rw [room]
      apply fits writable old
      intro none
      exact filled (by rw [none]; rfl)

theorem checked_hivexNodeSetValue {node : Nat} {val : SetValue}
    (fits : ∀ prev, (hivexNodeValues node >>= fun prev => prev.mapM readValue) h.view = .ok prev →
      h.writable = true → (∃ old, getValues node h.view = .ok old) →
      editValues val prev ≠ [] → Fits host h.room (arrayRequests (editValues val prev))) :
    (checked stop).hivexNodeSetValue host node val h = hivexNodeSetValue host node val h := by
  unfold Platform.hivexNodeSetValue hivexNodeSetValue
  apply read_same
  intro values listed
  apply read_same
  intro prev copied
  apply checked_hivexNodeSetValues
  apply fits prev
  rw [bind_query, listed]
  exact copied

end Values

section AddChild
variable {host : Host} {h : Hive} {stop : Stop}

-- The records a child gets: its own and the list record, which copies `count` keys.
def childRequests (name : CString) (count : Nat) : List Nat :=
  [Nk.sizeof + name.strlen, Lf.sizeof + count * 8]

/-- A program that takes no room when it returns a value. -/
def Steady {α : Type} (program : Command α) : Prop :=
  ∀ h, wp program (fun _ g => g.room = h.room ∧ g.writable = h.writable) (fun _ _ => True) h

theorem Quiet.steady {α : Type} {program : Command α} (quiet : Quiet program) : Steady program :=
  fun h => wp_mono (quiet h) (fun _ _ kept => kept) fun _ _ _ => trivial

theorem Steady.pure {α : Type} (value : α) : Steady (pure value : Command α) := fun _ => ⟨rfl, rfl⟩

theorem Steady.fail (code : Errno) {α : Type} : Steady (fail code : Command α) := fun _ => trivial

theorem Steady.read {α : Type} (query : Reader α) : Steady (read query) := by
  intro h
  apply wp_mono (read_keeps query)
  · rintro _ g ⟨-, rfl⟩
    exact ⟨rfl, rfl⟩
  · exact fun _ _ _ => trivial

theorem Steady.tryRead {α : Type} (query : Reader α) :
    Steady (tryRead id query : Command (Except Errno α)) := by
  intro h
  apply (wp_attempt _ _ _).mpr
  apply (wp_look _ _ _).mpr
  unfold Ends
  split
  · exact ⟨rfl, rfl⟩
  · dsimp only
    split
    · exact ⟨rfl, rfl⟩
    · trivial

theorem Steady.bind {α β : Type} {first : Command α} {next : α → Command β} (steady : Steady first)
    (continues : ∀ value, Steady (next value)) : Steady (first >>= next) := by
  intro h
  apply wp_seq (steady h)
  rintro value g ⟨room, kept⟩
  apply wp_mono (continues value g)
  · exact fun _ _ later => ⟨later.1.trans room, later.2.trans kept⟩
  · exact fun _ _ _ => trivial

theorem Steady.ite {α : Type} {condition : Prop} [Decidable condition] {yes no : Command α}
    (left : Steady yes) (right : Steady no) : Steady (if condition then yes else no) := by
  split
  · exact left
  · exact right

theorem Steady.inheritSk (parent node : Nat) : Steady (inheritSk parent node) := by
  unfold Hivex.inheritSk
  apply (Steady.read _).bind
  intro sk
  apply (Steady.read _).bind
  intro valid
  have stores : Steady (do
      let refcount ← Hivex.read (rd32 (sk + 0x1000) Sk.refcount)
      wr32 (sk + 0x1000 + Sk.refcount) (refcount + 1)
      wr32 (node + Nk.sk) (sk + 0x1000 - 0x1000)
      let timestamp ← Hivex.read (rd64 parent Nk.timestamp)
      wr64 (node + Nk.timestamp) timestamp) :=
    (Steady.read _).bind fun _ => (Quiet.wrBytes _ _).steady.bind fun _ =>
      (Quiet.wrBytes _ _).steady.bind fun _ => (Steady.read _).bind fun _ =>
      (Quiet.wrBytes _ _).steady
  have named : Steady (do
      let isSk ← Hivex.read (blockIdEq (sk + 0x1000) Sk.id)
      unless isSk do Hivex.fail .EFAULT
      let refcount ← Hivex.read (rd32 (sk + 0x1000) Sk.refcount)
      wr32 (sk + 0x1000 + Sk.refcount) (refcount + 1)
      wr32 (node + Nk.sk) (sk + 0x1000 - 0x1000)
      let timestamp ← Hivex.read (rd64 parent Nk.timestamp)
      wr64 (node + Nk.timestamp) timestamp) := by
    apply (Steady.read _).bind
    intro isSk
    exact Steady.ite stores ((Steady.fail _).bind fun _ => stores)
  exact Steady.ite named ((Steady.fail _).bind fun _ => named)

theorem Steady.compareName (name : CString) (nkOffs : Nat) :
    Steady (compareNameWithNkName name nkOffs) := by
  unfold compareNameWithNkName requireValid
  apply ((Steady.read _).bind fun _ => (Quiet.assert _).steady).bind
  intro _
  apply (Steady.read _).bind
  intro _
  apply (Quiet.assert _).steady.bind
  intro _
  apply (Steady.tryRead _).bind
  intro named
  cases named with
  | error code => exact Steady.pure _
  | ok nname => exact Steady.pure _

theorem Steady.findGreater (name : CString) (lf : Nat) (entries : List Nat) :
    Steady (findGreater name lf entries) := by
  induction entries with
  | nil => exact Steady.pure _
  | cons j rest ih =>
      unfold Hivex.findGreater
      apply (Steady.read _).bind
      intro nkOffs
      apply (Steady.compareName _ _).bind
      intro order
      exact Steady.ite (Steady.pure _) ih

theorem Steady.findInsert (name : CString) (blocks : List Nat) :
    ∀ last : Option Nat, Steady (findInsert name last blocks) := by
  induction blocks with
  | nil =>
      intro last
      unfold Hivex.findInsert
      apply (Quiet.assert _).steady.bind
      intro _
      exact (Steady.read _).bind fun _ => Steady.pure _
  | cons block rest ih =>
      intro last
      unfold Hivex.findInsert
      apply (Steady.read _).bind
      intro id
      apply Steady.ite
      · apply (Steady.read _).bind
        intro nrKeys
        apply (Steady.findGreater _ _ _).bind
        intro found
        cases found with
        | none => exact ih _
        | some j => exact Steady.pure _
      · exact ih _

theorem checked_newNkRecord {parent : Nat} {name : CString} (writable : h.writable = true)
    (fits : Fits host h.room [Nk.sizeof + name.strlen])
    (above : ∀ room, h.room.block host (Nk.sizeof + name.strlen) = .ok room → parent < offsetLimit) :
    (checked stop).newNkRecord host parent name h = newNkRecord host parent name h := by
  obtain ⟨same, -⟩ := @Fits.allocate host h stop _ _ fits writable Nk.id
  have taken := @allocateBlock_decides h host (Nk.sizeof + name.strlen) Nk.id writable
  have limit : offsetLimit = 2 ^ 32 + 0x1000 := rfl
  unfold Platform.newNkRecord newNkRecord
  apply run_same same (wp_mono taken (fun _ _ done => done) fun _ _ _ => trivial)
  rintro node g ⟨room, -⟩
  have small := above g.room room
  rw [checked_storeOffset (by omega : parent - 0x1000 < 2 ^ 32)]

/-- The child's own record leaves room for its list record. -/
theorem newNkRecord_gives {parent : Nat} {name : CString} (writable : h.writable = true)
    (fits : ∀ count < 2 ^ 16, Fits host h.room (childRequests name count)) :
    wp (newNkRecord host parent name)
      (fun node g => node < offsetLimit ∧ (∀ count < 2 ^ 16, Fits host g.room [Lf.sizeof + count * 8]) ∧
        g.writable = true) (fun _ _ => True) h := by
  obtain ⟨-, gives⟩ := @Fits.allocate host h .fuel _ _ (fits 0 (by decide)) writable Nk.id
  have taken := @allocateBlock_decides h host (Nk.sizeof + name.strlen) Nk.id writable
  unfold newNkRecord
  apply wp_seq (wp_mono (wp_and gives taken) (fun _ _ done => done) fun _ _ _ => trivial)
  rintro node g ⟨⟨below, -, -⟩, room, kept⟩
  have fields : Steady (wr16 (node + Nk.flags) 0x0020 >>= fun _ =>
      wr32 (node + Nk.parent) (parent - 0x1000) >>= fun _ =>
      wr32 (node + Nk.subkeyLf) 0xffffffff >>= fun _ =>
      wr32 (node + Nk.subkeyLfVolatile) 0xffffffff >>= fun _ =>
      wr32 (node + Nk.vallist) 0xffffffff >>= fun _ =>
      wr32 (node + Nk.classname) 0xffffffff >>= fun _ =>
      wr16 (node + Nk.nameLen) name.strlen >>= fun _ =>
      wrBytes (node + Nk.name) (name.bytes ++ [0])) :=
    ((Quiet.wrBytes _ _).bind fun _ => (Quiet.wrBytes _ _).bind fun _ =>
      (Quiet.wrBytes _ _).bind fun _ => (Quiet.wrBytes _ _).bind fun _ =>
      (Quiet.wrBytes _ _).bind fun _ => (Quiet.wrBytes _ _).bind fun _ =>
      (Quiet.wrBytes _ _).bind fun _ => Quiet.wrBytes _ _).steady
  have room_left : ∀ k : Hive, k.room = g.room → ∀ count < 2 ^ 16,
      Fits host k.room [Lf.sizeof + count * 8] := by
    intro k same count small
    rw [same]
    exact (fits count small g.room room).2
  have ends := wp_mono (fields g) (fun _ k done => (⟨below, room_left k done.1, done.2.trans kept⟩ :
    node < offsetLimit ∧ (∀ count < 2 ^ 16, Fits host k.room [Lf.sizeof + count * 8]) ∧
      k.writable = true)) fun _ _ done => done
  simp only [wp_bind] at ends ⊢
  exact ends

theorem checked_relinkEntry {newOffs : Nat} (small : newOffs < offsetLimit) (ri oldOffs : Nat)
    (entries : List Nat) :
    (checked stop).relinkEntry ri oldOffs newOffs entries = relinkEntry ri oldOffs newOffs entries := by
  have limit : offsetLimit = 2 ^ 32 + 0x1000 := rfl
  induction entries with
  | nil => rfl
  | cons j rest ih =>
      rw [Platform.relinkEntry, relinkEntry, ← ih, checked_storeOffset (by omega)]
      rfl

theorem checked_relinkRi {newOffs : Nat} (small : newOffs < offsetLimit) (oldOffs : Nat)
    (blocks : List Nat) :
    (checked stop).relinkRi oldOffs newOffs blocks = relinkRi oldOffs newOffs blocks := by
  induction blocks with
  | nil => rfl
  | cons block rest ih =>
      rw [Platform.relinkRi, relinkRi, ih]
      simp only [checked_relinkEntry small]

theorem checked_newLhRecord {node : Nat} (fits : Fits host h.room [Lf.sizeof])
    (writable : h.writable = true) (small : node < offsetLimit) (name : CString) :
    (checked stop).newLhRecord host name node h = newLhRecord host name node h ∧
      wp (newLhRecord host name node) (fun lh _ => lh < offsetLimit) (fun _ _ => True) h := by
  obtain ⟨same, gives⟩ := @Fits.allocate host h stop _ _ fits writable Lf.idLh
  have limit : offsetLimit = 2 ^ 32 + 0x1000 := rfl
  constructor
  · unfold Platform.newLhRecord newLhRecord
    apply run_same same gives
    intro lh g _
    rw [checked_storeOffset (by omega : node - 0x1000 < 2 ^ 32)]
  · unfold newLhRecord
    apply wp_seq gives
    rintro lh g ⟨below, -, -⟩
    apply wp_seq (wp_any _ _)
    intro _ _ _
    apply wp_seq (wp_any _ _)
    intro _ _ _
    apply wp_seq (wp_any _ _)
    exact fun _ _ _ => below

theorem rd16_small {b i n : Nat} {v : View} (found : rd16 b i v = .ok n) : n < 2 ^ 16 := by
  unfold rd16 rdLe at found
  split at found
  · rw [← Except.ok.inj found]
    exact get16_lt _ _
  · contradiction

theorem checked_insertLfRecord {oldOffs node : Nat}
    (fits : ∀ count < 2 ^ 16, Fits host h.room [Lf.sizeof + count * 8])
    (writable : h.writable = true) (small : node < offsetLimit) (posn : Nat) (name : CString) :
    (checked stop).insertLfRecord host oldOffs posn name node h =
        insertLfRecord host oldOffs posn name node h ∧
      wp (insertLfRecord host oldOffs posn name node) (fun lf _ => lf < offsetLimit)
        (fun _ _ => True) h := by
  have limit : offsetLimit = 2 ^ 32 + 0x1000 := rfl
  have valid : wp (requireValid oldOffs) (fun _ g => g = h) (fun _ _ => True) h := by
    unfold requireValid
    apply wp_seq (read_keeps _)
    rintro value g ⟨-, rfl⟩
    cases value with
    | true => rfl
    | false => trivial
  have known : ∀ condition : Bool, wp (assert condition) (fun _ g => g = h) (fun _ _ => True) h := by
    intro condition
    cases condition with
    | true => rfl
    | false => trivial
  constructor
  · unfold Platform.insertLfRecord insertLfRecord
    apply run_same rfl valid
    rintro _ g rfl
    apply read_same
    intro id _
    apply run_same rfl (known _)
    rintro _ g rfl
    apply read_same
    intro nrKeys found
    obtain ⟨same, gives⟩ := @Fits.allocate host g stop _ _ (fits nrKeys (rd16_small found)) writable id
    apply run_same same gives
    intro newOffs k _
    rw [checked_storeOffset (by omega : node - 0x1000 < 2 ^ 32)]
  · unfold insertLfRecord
    apply wp_seq valid
    rintro _ g rfl
    apply wp_seq (read_keeps _)
    rintro id g ⟨-, rfl⟩
    apply wp_seq (known _)
    rintro _ g rfl
    apply wp_seq (read_keeps _)
    rintro nrKeys g ⟨found, rfl⟩
    obtain ⟨-, gives⟩ := @Fits.allocate host g stop _ _ (fits nrKeys (rd16_small found)) writable id
    apply wp_seq gives
    rintro newOffs k ⟨below, -, -⟩
    apply wp_seq (wp_any _ _)
    intro _ _ _
    apply wp_seq (wp_any _ _)
    intro _ _ _
    apply wp_seq (wp_any _ _)
    intro _ _ _
    apply wp_seq (wp_any _ _)
    intro _ _ _
    apply wp_seq (wp_any _ _)
    intro _ _ _
    apply wp_seq (wp_any _ _)
    exact fun _ _ _ => below

theorem checked_linkChild {parent node nrSubkeys : Nat} {name : CString} {blocks : List Nat}
    (writable : h.writable = true) (small : node < offsetLimit)
    (fits : ∀ count < 2 ^ 16, Fits host h.room [Lf.sizeof + count * 8]) :
    (checked stop).linkChild host parent node name nrSubkeys blocks h =
      linkChild host parent node name nrSubkeys blocks h := by
  have limit : offsetLimit = 2 ^ 32 + 0x1000 := rfl
  unfold Platform.linkChild linkChild
  split
  · apply quiet_same (Quiet.forM _ Quiet.markBlockUnused blocks)
    intro _ g kept write
    obtain ⟨same, gives⟩ := @checked_newLhRecord host g stop node (by rw [kept]; exact fits 0 (by decide))
      (write.trans writable) small name
    apply run_same same gives
    intro lh k below
    rw [checked_storeOffset (by omega : lh - 0x1000 < 2 ^ 32)]
  · apply run_same rfl (Steady.findInsert name blocks none h)
    rintro ⟨oldOffs, j⟩ g ⟨kept, write⟩
    obtain ⟨same, gives⟩ := @checked_insertLfRecord host g stop oldOffs node (by rwa [kept])
      (write.trans writable) small j name
    apply run_same same gives
    intro newOffs k below
    rw [checked_storeOffset (by omega : newOffs - 0x1000 < 2 ^ 32)]
    simp only [checked_relinkRi below]

theorem checked_hivexNodeAddChild {parent : Nat} {name : CString}
    (fits : h.writable = true → requireBlock parent Nk.id h.view = .ok () → name.strlen ≠ 0 →
      hivexNodeGetChild parent name h.view = .ok 0 →
      (∀ room, h.room.block host (Nk.sizeof + name.strlen) = .ok room → parent < offsetLimit) ∧
      ∀ count < 2 ^ 16, Fits host h.room (childRequests name count)) :
    (checked stop).hivexNodeAddChild host parent name h = hivexNodeAddChild host parent name h := by
  unfold Platform.hivexNodeAddChild hivexNodeAddChild
  apply get_same
  apply guard_same
  intro write
  have writable : h.writable = true := by simpa using write
  apply read_same
  intro _ isNk
  apply guard_same
  intro named
  apply read_same
  intro existing searched
  apply guard_same
  intro absent
  have fresh : hivexNodeGetChild parent name h.view = .ok 0 := by
    rw [searched]
    exact congrArg _ (not_not.mp absent)
  obtain ⟨above, records⟩ := fits writable isNk named fresh
  have record : Fits host h.room [Nk.sizeof + name.strlen] :=
    fun room taken => ⟨(records 0 (by decide) room taken).1, trivial⟩
  apply run_same (checked_newNkRecord writable record above) (newNkRecord_gives writable records)
  rintro node g ⟨below, lists, kept⟩
  apply run_same rfl (Steady.inheritSk parent node g)
  rintro _ g' ⟨room, kept'⟩
  apply read_same
  intro children _
  apply read_same
  intro nrSubkeys _
  apply run_same (checked_linkChild (kept'.trans kept) below (by rwa [room])) (wp_any _ _)
  exact fun _ _ _ => rfl

end AddChild

section Commit
variable {h : Hive} {stop : Stop}

theorem checked_hivexCommit {io : CommitIo} {flags : Nat}
    (fits : flags = 0 → h.writable = true → io.openOk = true → h.endpages < offsetLimit) :
    (checked stop).hivexCommit io flags h = hivexCommit io flags h := by
  unfold Platform.hivexCommit hivexCommit
  apply guard_same
  intro flagsOk
  apply get_same
  apply guard_same
  intro write
  apply guard_same
  intro opened
  have small : h.endpages < offsetLimit :=
    fits (by simpa using flagsOk) (by simpa using write) (by simpa using opened)
  have limit : offsetLimit = 2 ^ 32 + 0x1000 := rfl
  have header : (checked stop).updateHeader h = updateHeader h := by
    unfold Platform.updateHeader updateHeader
    apply read_same
    intro sequence _
    have same : ∀ i v, ∀ next next' : Unit → Command Unit,
        (∀ g : Hive, g.endpages = h.endpages → next () g = next' () g) →
        ∀ g : Hive, g.endpages = h.endpages → (wr32 i v >>= next) g = (wr32 i v >>= next') g := by
      intro i v next next' continues g ends
      apply quiet_same (Quiet.wrBytes _ _)
      intro _ k room _
      apply continues
      exact (congrArg Room.endpages room).trans ends
    apply same _ _ _ _ _ h rfl
    apply same
    intro g ends
    rw [get_then, get_then, checked_storeOffset (by omega : g.endpages - 0x1000 < 2 ^ 32)]
  apply run_same header (wp_any _ _)
  exact fun _ _ _ => rfl

end Commit

section Runs
variable {host : Host} {h : Hive}

theorem checked_hivexNodeDeleteChild (stop : Stop) :
    (checked stop).hivexNodeDeleteChild = onLittle.hivexNodeDeleteChild := by
  have sk : (checked stop).releaseSk = onLittle.releaseSk := rfl
  have visitor : (checked stop).deleteVisitor = onLittle.deleteVisitor := by
    rw [Platform.deleteVisitor, Platform.deleteVisitor]
    simp only [Platform.deleteNode, sk]
  funext host node
  rw [Platform.hivexNodeDeleteChild, Platform.hivexNodeDeleteChild, visitor]

/-- Before the call: the parent of a new child and every block that the call asks the
allocator for start below the limit, and a commit has its end of pages there. -/
def CallFits (host : Host) : WriteCall → Hive → Prop
  | .addChild parent name, h =>
      h.writable = true → requireBlock parent Nk.id h.view = .ok () → name.strlen ≠ 0 →
        hivexNodeGetChild parent name h.view = .ok 0 →
        (∀ room, h.room.block host (Nk.sizeof + name.strlen) = .ok room → parent < offsetLimit) ∧
        ∀ count < 2 ^ 16, Fits host h.room (childRequests name count)
  | .deleteChild _, _ => True
  | .setValues node values, h =>
      h.writable = true → (∃ old, getValues node h.view = .ok old) → values ≠ [] →
        Fits host h.room (arrayRequests values)
  | .setValue node val, h =>
      ∀ prev, (hivexNodeValues node >>= fun prev => prev.mapM readValue) h.view = .ok prev →
        h.writable = true → (∃ old, getValues node h.view = .ok old) → editValues val prev ≠ [] →
        Fits host h.room (arrayRequests (editValues val prev))
  | .commit io flags, h =>
      flags = 0 → h.writable = true → io.openOk = true → h.endpages < offsetLimit

theorem CallFits.run_checked {call : WriteCall} (fits : CallFits host call h) (stop : Stop) :
    call.run (checked stop) host h = call.run onLittle host h := by
  cases call with
  | addChild parent name =>
      apply run_same _ (wp_any _ _)
      · exact fun _ _ _ => rfl
      · rw [little_hivexNodeAddChild]
        exact checked_hivexNodeAddChild fits
  | deleteChild node =>
      apply run_same _ (wp_any _ _)
      · exact fun _ _ _ => rfl
      · rw [checked_hivexNodeDeleteChild]
  | setValues node values =>
      apply run_same _ (wp_any _ _)
      · exact fun _ _ _ => rfl
      · rw [little_hivexNodeSetValues]
        exact checked_hivexNodeSetValues fits
  | setValue node val =>
      apply run_same _ (wp_any _ _)
      · exact fun _ _ _ => rfl
      · rw [little_hivexNodeSetValue]
        exact checked_hivexNodeSetValue fits
  | commit io flags =>
      apply run_same _ (wp_any _ _)
      · exact fun _ _ _ => rfl
      · rw [little_hivexCommit]
        exact checked_hivexCommit fits

-- The same run cannot stop for two reasons.
theorem CallFits.not_wraps {call : WriteCall} (fits : CallFits host call h) : ¬Wraps host call h := by
  intro wraps
  obtain ⟨_, aborts⟩ := wraps .abort
  obtain ⟨_, stops⟩ := wraps .fuel
  have same := (fits.run_checked .abort).trans (fits.run_checked .fuel).symm
  rw [aborts, stops] at same
  cases same

theorem EachMeets.mono {condition condition' : WriteCall → Hive → Prop}
    (each : ∀ call h, condition call h → condition' call h) :
    ∀ {calls : List WriteCall} {h : Hive}, EachMeets host condition calls h →
      EachMeets host condition' calls h := by
  intro calls
  induction calls with
  | nil => exact fun _ => trivial
  | cons call rest ih =>
      rintro h ⟨here, later⟩
      exact ⟨each call h here, fun g left => ih (later g left)⟩

-- The header counts the blocks from 0x1000 as well.
theorem commit_wraps {io : CommitIo} (opened : io.openOk = true) (writable : h.writable = true)
    (large : 0x200 ≤ h.size) (past : offsetLimit ≤ h.endpages) : Wraps host (.commit io 0) h := by
  intro stop
  have limit : offsetLimit = 2 ^ 32 + 0x1000 := rfl
  have word : read (rd32 0 Header.sequence1) h = .ok (get32 h.addr (0 + Header.sequence1)) h := by
    have inside : 0 + Header.sequence1 + 4 ≤ h.size := by
      simp only [Header.sequence1]
      omega
    simp only [read, look, rdLe_view inside, get32]
  have stored : ∀ i v, i + 4 ≤ h.size → ∀ g : Hive, g.size = h.size → g.endpages = h.endpages →
      ∃ k, wr32 i v g = .ok () k ∧ k.size = h.size ∧ k.endpages = h.endpages := by
    intro i v low g size ends
    have inside : i + (leBytes 4 v).length ≤ g.size := by
      rw [leBytes_length, size]
      exact low
    exact ⟨_, wrBytes_run inside, size, ends⟩
  obtain ⟨g₁, first, size, ends⟩ := stored Header.sequence1 (get32 h.addr (0 + Header.sequence1) + 1)
    (by simp only [Header.sequence1]; omega) h rfl rfl
  obtain ⟨g, second, -, last⟩ := stored Header.sequence2 (get32 h.addr (0 + Header.sequence1) + 1)
    (by simp only [Header.sequence2]; omega) g₁ size ends
  have stops : (checked stop).updateHeader h = .error stop g := by
    unfold Platform.updateHeader
    rw [run_ok word, run_ok first, run_ok second, get_then,
      checked_cut (by omega : ¬g.endpages - 0x1000 < 2 ^ 32)]
  exists g
  have fails : (checked stop).hivexCommit io 0 h = .error stop g := by
    unfold Platform.hivexCommit
    rw [if_neg (by decide : ¬(0 : Nat) ≠ 0)]
    dsimp only
    rw [get_then, writable, opened]
    exact run_error stops
  exact run_error fails

-- One page up to the last 4096 bytes before 4 GiB, most of it two free blocks.
def brimmingImage : Mem :=
  [(0x1000 + Hbin.pageSize, leBytes 4 0xffffe000), (0x1090, leBytes 4 0x7fffefb8),
    (0x80000048, leBytes 4 0x7fffefb8)].foldl (fun image (i, bytes) => blit image i bytes) minimalImage

def brimming : Hive :=
  { minimal with
    size := 0xfffff000
    addr := brimmingImage
    endpages := 0xfffff000 }

-- A `realloc` that always finds memory.
def boundlessHost : Host where
  realloc _ := true
  iconv _ := .error .EILSEQ

def longValue : SetValue := ⟨⟨[], nulFree_nil⟩, 3, List.replicate 5000 0⟩

/-- The call, then a commit that goes past the limit: the handle before the commit. -/
def pastLimit : Except Stop Hive → Bool
  | .ok h =>
      match handleAfter (WriteCall.run onLittle boundlessHost (.setValues 0x1020 [longValue]) h) with
      | some g => g.writable && decide (0x200 ≤ g.size) && decide (offsetLimit ≤ g.endpages)
      | none => false
  | .error _ => false

end Runs
end Hivex
