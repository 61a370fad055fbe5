import Hivex.HiveAllocate

/-! What a failed value write loses. The sizes of the image alone decide which
allocations are granted; the old values are gone before the first of them. -/
namespace Hivex

open ByteMemory Commands

/-- The sizes that decide an allocation. -/
structure Room where
  size : Nat
  endpages : Nat
  endblocks : Nat

def Hive.room (h : Hive) : Room := ⟨h.size, h.endpages, h.endblocks⟩

namespace Room

/-- The room after `allocate_page` for a block of `len` bytes. -/
def page (host : Host) (room : Room) (len : Nat) : Except Stop Room :=
  let newsize := room.endpages + (1 + (len + 31) / 4096) * 4096
  if room.size < newsize then
    if host.realloc newsize then
      if host.realloc (bitmapLen newsize) then .ok ⟨newsize, newsize, room.endpages + 0x20⟩
      else .error .dangling
    else .error (.errno .ENOMEM)
  else .ok ⟨room.size, newsize, room.endpages + 0x20⟩

/-- The room after `allocate_block`. -/
def block (host : Host) (room : Room) (segLen : Nat) : Except Stop Room :=
  if segLen < 4 ∨ hiveMaxAllocation < segLen then .error (.errno .ERANGE)
  else
    let len := (segLen + 7) / 8 * 8
    if room.endblocks = 0 ∨ room.endblocks + len > room.endpages then
      (room.page host len).map fun room => { room with endblocks := room.endblocks + len }
    else .ok { room with endblocks := room.endblocks + len }

def blocks (host : Host) (room : Room) (requests : List Nat) : Except Stop Room :=
  requests.foldlM (fun room segLen => room.block host segLen) room

end Room

def dataRequests (value : List UInt8) : List Nat :=
  if value.length ≤ 4 then [] else [value.length + 4]

/-- The blocks that one array element asks for. -/
def SetValue.requests (val : SetValue) : List Nat :=
  (Vk.sizeof + val.key.strlen) :: dataRequests val.value

def listRequest (values : List SetValue) : Nat := ValueList.sizeof + (values.length - 1) * 4

/-- The blocks that an array asks for. -/
def arrayRequests (values : List SetValue) : List Nat :=
  listRequest values :: values.flatMap SetValue.requests

/-- The stops in which the C function does not return. -/
def Halts (stop : Stop) : Prop := stop = .abort ∨ stop = .outside

/-- A program that changes no size and never returns an error. -/
def Quiet {α : Type} (program : Command α) : Prop :=
  ∀ h, wp program (fun _ h' => h'.room = h.room ∧ h'.writable = h.writable)
    (fun stop _ => Halts stop) h

section Quiet
variable {α β : Type}

theorem Quiet.pure (value : α) : Quiet (pure value : Command α) := fun _ => ⟨rfl, rfl⟩

theorem Quiet.bind {first : Command α} {next : α → Command β} (quiet : Quiet first)
    (continues : ∀ value, Quiet (next value)) : Quiet (first >>= next) := by
  intro h
  refine wp_seq (quiet h) fun value t ⟨room, writable⟩ => ?_
  refine wp_mono (continues value t) ?_ fun _ _ halts => halts
  exact fun _ t' ⟨room', writable'⟩ => ⟨room'.trans room, writable'.trans writable⟩

theorem Quiet.ite {condition : Prop} [Decidable condition] {yes no : Command α} (left : Quiet yes)
    (right : Quiet no) : Quiet (if condition then yes else no) := by
  split
  · exact left
  · exact right

theorem Quiet.forM (f : α → Command Unit) (each : ∀ x, Quiet (f x)) (xs : List α) :
    Quiet (xs.forM f) := by
  induction xs with
  | nil => exact Quiet.pure ()
  | cons x xs ih => exact (each x).bind fun _ => ih

theorem Quiet.get : Quiet (get : Command Hive) := fun _ => ⟨rfl, rfl⟩

theorem Quiet.assert (condition : Bool) : Quiet (assert condition) := by
  intro h
  cases condition with
  | true => exact ⟨rfl, rfl⟩
  | false => exact Or.inl rfl

theorem Quiet.read {query : Reader α} (halts : ∀ v, Ends (query v) (fun _ => True) Halts) :
    Quiet (read query) := by
  intro h
  refine (wp_look _ _ _).mpr ?_
  exact (halts h.view).mono (fun _ _ => ⟨rfl, rfl⟩) fun _ halts => halts

theorem rdLe_halts (n b i : Nat) (v : View) : Ends (rdLe n b i v) (fun _ => True) Halts := by
  unfold rdLe
  split
  · trivial
  · exact Or.inr rfl

theorem Quiet.rdLe (n b i : Nat) : Quiet (Hivex.read (rdLe n b i)) := Quiet.read (rdLe_halts n b i)

theorem Quiet.wrBytes (i : Nat) (bytes : List UInt8) : Quiet (wrBytes i bytes) := by
  intro h
  by_cases inside : i + bytes.length ≤ h.size
  · exact wp_of_ok (wrBytes_run inside) ⟨rfl, rfl⟩
  · simp only [wp, Hivex.wrBytes, inside, if_false]
    exact Or.inr rfl

theorem Quiet.clearBit (off : Nat) : Quiet (clearBit off) := by
  intro h
  by_cases inside : off / 32 < bitmapLen h.size
  · simp only [wp, Hivex.clearBit, bitmapClr, inside, if_true]
    trivial
  · simp only [wp, Hivex.clearBit, bitmapClr, inside, if_false]
    exact Or.inr rfl

theorem Quiet.isValidBlock (off : Nat) : Quiet (Hivex.read (isValidBlock off)) := by
  refine Quiet.read fun v => ?_
  unfold Hivex.isValidBlock bitmapTst
  split_ifs
  · trivial
  · exact Or.inr rfl
  · trivial

theorem Quiet.markBlockUnused (offset : Nat) : Quiet (markBlockUnused offset) := by
  refine Quiet.get.bind fun _ => (Quiet.assert _).bind fun _ => ?_
  refine ((Quiet.isValidBlock _).bind fun _ => Quiet.assert _).bind fun _ => ?_
  have length : Quiet (Hivex.read (blockLen offset)) := Quiet.read fun v =>
    (rdLe_halts 4 offset 0 v).bind fun _ _ => trivial
  exact length.bind fun _ => (Quiet.wrBytes _ _).bind fun _ => Quiet.clearBit _

theorem Quiet.deleteValue (value : Nat) : Quiet (deleteValue value) := by
  refine (Quiet.rdLe _ _ _).bind fun len => ?_
  dsimp only
  split
  · exact (Quiet.rdLe _ _ _).bind fun _ => (Quiet.markBlockUnused _).bind fun _ =>
      Quiet.markBlockUnused value
  · exact Quiet.markBlockUnused value

end Quiet

section Deciding
variable {h : Hive} {host : Host} {segLen : Nat} {id : List UInt8}

theorem Quiet.wrFill (base count : Nat) : Quiet (wrFill base count) := by
  intro h
  by_cases inside : base + count ≤ h.size
  · exact wp_of_ok (wrFill_run inside) ⟨rfl, rfl⟩
  · simp only [wp, Hivex.wrFill, inside, if_false]
    exact Or.inr rfl

theorem Quiet.setBit (off : Nat) : Quiet (setBit off) := by
  intro h
  by_cases inside : off / 32 < bitmapLen h.size
  · exact wp_of_ok (setBit_run inside) ⟨rfl, rfl⟩
  · simp only [wp, Hivex.setBit, bitmapSet, inside, if_false]
    exact Or.inr rfl

theorem writePage_room (pages : Nat) (h : Hive) :
    wp (writePage pages)
      (fun offset h' => h'.room = ⟨h.size, h.endpages + pages * 4096, h.endblocks⟩ ∧
        offset = h.endpages + 0x20 ∧ h'.writable = h.writable)
      (fun stop _ => Halts stop) h := by
  refine (wp_bind _ _ _).mpr ((wp_get _).mpr ((wp_bind _ _ _).mpr ((wp_modify _ _).mpr ?_)))
  refine wp_seq (Quiet.wrBytes _ _ _) fun _ h₁ ⟨room₁, writable₁⟩ => ?_
  refine wp_seq (Quiet.wrBytes _ _ _) fun _ h₂ ⟨room₂, writable₂⟩ => ?_
  refine wp_seq (Quiet.wrBytes _ _ _) fun _ h₃ ⟨room₃, writable₃⟩ => ?_
  refine wp_seq (Quiet.wrFill _ _ _) fun _ h₄ ⟨room₄, writable₄⟩ => ?_
  exact ⟨room₄.trans (room₃.trans (room₂.trans room₁)), rfl,
    writable₄.trans (writable₃.trans (writable₂.trans writable₁))⟩

theorem allocatePage_decides (hint : Nat) :
    wp (allocatePage host hint)
      (fun offset h' => h.room.page host hint = .ok ⟨h'.size, h'.endpages, offset⟩ ∧
        h'.writable = h.writable)
      (fun stop h' => h.room.page host hint = .error stop ∧ h' = h ∨ Halts stop) h := by
  unfold allocatePage
  set newsize := h.endpages + (1 + (hint + 31) / 4096) * 4096 with newsizeEq
  simp only [Hbin.sizeof, Nat.add_succ_sub_one]
  refine (wp_bind _ _ _).mpr ((wp_get _).mpr ?_)
  have written : ∀ g : Hive, g.endpages = h.endpages → g.writable = h.writable →
      h.room.page host hint = .ok ⟨g.size, newsize, h.endpages + 0x20⟩ →
      wp (writePage (1 + (hint + 31) / 4096))
        (fun offset h' => h.room.page host hint = .ok ⟨h'.size, h'.endpages, offset⟩ ∧
          h'.writable = h.writable)
        (fun stop h' => h.room.page host hint = .error stop ∧ h' = h ∨ Halts stop) g := by
    intro g endpages writable decided
    refine wp_mono (writePage_room _ g) ?_ fun _ _ halts => Or.inr halts
    rintro offset h' ⟨room, rfl, writable'⟩
    have size := congrArg Room.size room
    have newpages := congrArg Room.endpages room
    simp only [Hive.room, endpages] at size newpages
    rw [decided, size, newpages, endpages]
    exact ⟨rfl, writable'.trans writable⟩
  split
  · rename_i growth
    have grows : h.size < newsize := by omega
    have grown : h.size + ((newsize : Int) - (h.size : Int)).toNat = newsize := by omega
    rw [grown]
    refine (wp_bind _ _ _).mpr ?_
    by_cases granted : host.realloc newsize = true
    · by_cases bitmap : host.realloc (bitmapLen newsize) = true
      · have run : growImage host newsize h = .ok () (h.grown newsize) := by
          simp only [growImage, granted, bitmap, if_true]
          rfl
        refine wp_of_ok run (written _ rfl rfl ?_)
        simp only [Room.page, Hive.room, ← newsizeEq, grows, granted, bitmap, if_true]
        rfl
      · have refused : h.room.page host hint = .error .dangling := by
          simp only [Room.page, Hive.room, ← newsizeEq, grows, granted, bitmap, if_true]
          rfl
        simp [wp, growImage, granted, bitmap, refused]
    · have refused : h.room.page host hint = .error (.errno .ENOMEM) := by
        simp only [Room.page, Hive.room, ← newsizeEq, grows, granted, if_true]
        rfl
      simp [wp, growImage, granted, refused]
  · have fits : ¬h.size < newsize := by omega
    refine written h rfl rfl ?_
    simp only [Room.page, Hive.room, ← newsizeEq, fits, if_false]

theorem placeBlock_room (h : Hive) :
    wp (placeBlock segLen id)
      (fun _ h' => h'.room = ⟨h.size, h.endpages, h.endblocks + segLen⟩ ∧ h'.writable = h.writable)
      (fun stop _ => Halts stop) h := by
  refine (wp_bind _ _ _).mpr ((wp_get _).mpr ?_)
  refine wp_seq (Quiet.wrFill _ _ _) fun _ h₁ ⟨room₁, writable₁⟩ => ?_
  refine wp_seq (Quiet.wrBytes _ _ _) fun _ h₂ ⟨room₂, writable₂⟩ => ?_
  refine wp_seq (Quiet.wrBytes _ _ _) fun _ h₃ ⟨room₃, writable₃⟩ => ?_
  refine wp_seq (Quiet.setBit _ _) fun _ h₄ ⟨room₄, writable₄⟩ => ?_
  have room := room₄.trans (room₃.trans (room₂.trans room₁))
  have size := congrArg Room.size room
  have endpages := congrArg Room.endpages room
  have endblocks := congrArg Room.endblocks room
  simp only [Hive.room] at size endpages endblocks
  refine (wp_bind _ _ _).mpr ((wp_modify _ _).mpr ((wp_bind _ _ _).mpr ((wp_get _).mpr ?_)))
  have rest : ∀ g : Hive, g.room = ⟨h.size, h.endpages, h.endblocks + segLen⟩ →
      g.writable = h.writable → ∀ program : Command Nat, Quiet program →
      wp program (fun _ h' => h'.room = ⟨h.size, h.endpages, h.endblocks + segLen⟩ ∧
        h'.writable = h.writable) (fun stop _ => Halts stop) g :=
    fun g room writable program quiet => wp_mono (quiet g)
      (fun _ h' kept => ⟨kept.1.trans room, kept.2.trans writable⟩) fun _ _ halts => halts
  refine rest { h₄ with endblocks := h₄.endblocks + segLen } ?_
    (writable₄.trans (writable₃.trans (writable₂.trans writable₁))) _ ?_
  · show (⟨h₄.size, h₄.endpages, h₄.endblocks + segLen⟩ : Room) = _
    rw [size, endpages, endblocks]
  dsimp only
  split
  · exact (Quiet.assert _).bind fun _ => (Quiet.wrBytes _ _).bind fun _ => Quiet.pure _
  · exact Quiet.pure _

/-- `allocate_block` on any writable handle: the sizes decide whether it succeeds. -/
theorem allocateBlock_decides (writable : h.writable = true) :
    wp (allocateBlock host segLen id)
      (fun _ h' => h.room.block host segLen = .ok h'.room ∧ h'.writable = true)
      (fun stop h' => h.room.block host segLen = .error stop ∧ h' = h ∨ Halts stop) h := by
  unfold allocateBlock Room.block
  refine (wp_bind _ _ _).mpr ((wp_get _).mpr ?_)
  simp only [writable, Bool.not_true, Bool.false_eq_true, if_false]
  by_cases short : segLen < 4
  · simp [fail, short]
  by_cases long : segLen > hiveMaxAllocation
  · have large : hiveMaxAllocation < segLen := long
    simp [fail, short, large]
  simp only [short, long, or_self, if_false]
  set len := (segLen + 7) / 8 * 8 with lenEq
  refine (wp_bind _ _ _).mpr ((wp_get _).mpr ?_)
  have placed : ∀ g : Hive, g.writable = true → wp (placeBlock len id)
      (fun _ h' => h'.room = ⟨g.size, g.endpages, g.endblocks + len⟩ ∧ h'.writable = true)
      (fun stop _ => Halts stop) g := fun g write =>
    wp_mono (placeBlock_room g) (fun _ h' kept => ⟨kept.1, kept.2.trans write⟩) fun _ _ halts => halts
  split
  · rename_i full
    rw [if_pos (show h.room.endblocks = 0 ∨ h.room.endblocks + len > h.room.endpages from full)]
    refine wp_seq (wp_mono (allocatePage_decides len) (fun _ _ done => done) ?_) ?_
    · rintro stop h' (⟨decided, rfl⟩ | halts)
      · exact Or.inl ⟨by rw [decided]; rfl, rfl⟩
      · exact Or.inr halts
    · rintro offset h' ⟨decided, write⟩
      refine (wp_bind _ _ _).mpr ((wp_modify _ _).mpr ?_)
      refine wp_mono (placed _ (write.trans writable)) ?_ fun _ _ halts => Or.inr halts
      rintro _ g ⟨room, write⟩
      rw [decided, room]
      exact ⟨rfl, write⟩
  · rename_i space
    rw [if_neg (show ¬(h.room.endblocks = 0 ∨ h.room.endblocks + len > h.room.endpages) from space)]
    refine wp_mono (placed h writable) ?_ fun _ _ halts => Or.inr halts
    rintro _ g ⟨room, write⟩
    rw [room]
    exact ⟨rfl, write⟩


-- A program without allocations in front of one whose allocations decide.
theorem Quiet.before {α β : Type} {first : Command α} {next : α → Command β}
    {post : β → Hive → Prop} {stop : Stop → Hive → Prop} (quiet : Quiet first)
    (halts : ∀ reason t, Halts reason → stop reason t)
    (continues : ∀ value h', h'.room = h.room → h'.writable = h.writable →
      wp (next value) post stop h') : wp (first >>= next) post stop h :=
  wp_seq (wp_mono (quiet h) (fun _ _ kept => kept) halts)
    fun value h' kept => continues value h' kept.1 kept.2

/-- How a program ends whose allocations ask for `requests`. -/
def Decided {α : Type} (host : Host) (requests : List Nat) (program : Command α) (h : Hive) : Prop :=
  wp program (fun _ h' => h.room.blocks host requests = .ok h'.room ∧ h'.writable = true)
    (fun stop _ => h.room.blocks host requests = .error stop ∨ Halts stop) h

theorem blocks_append (room : Room) (front back : List Nat) :
    room.blocks host (front ++ back) =
      (room.blocks host front).bind fun room => room.blocks host back :=
  List.foldlM_append

theorem Decided.bind {α β : Type} {first : Command α} {next : α → Command β} {front back : List Nat}
    (decided : Decided host front first h)
    (continues : ∀ value h', h'.writable = true → Decided host back (next value) h') :
    Decided host (front ++ back) (first >>= next) h := by
  unfold Decided
  rw [blocks_append]
  refine wp_seq (wp_mono decided (fun _ _ done => done) ?_) ?_
  · rintro stop h' (refused | halts)
    · exact Or.inl (by rw [refused]; rfl)
    · exact Or.inr halts
  · rintro value h' ⟨granted, writable⟩
    rw [granted]
    exact continues value h' writable

theorem Quiet.decided {α : Type} {program : Command α} (quiet : Quiet program)
    (writable : h.writable = true) : Decided host [] program h :=
  wp_mono (quiet h) (fun _ _ kept => ⟨by rw [kept.1]; rfl, kept.2.trans writable⟩)
    fun _ _ halts => Or.inr halts

theorem allocateBlock_decided (writable : h.writable = true) :
    Decided host [segLen] (allocateBlock host segLen id) h := by
  have single : h.room.blocks host [segLen] = h.room.block host segLen := by
    unfold Room.blocks
    rw [List.foldlM_cons]
    cases h.room.block host segLen <;> rfl
  unfold Decided
  rw [single]
  exact wp_mono (allocateBlock_decides writable) (fun _ _ done => done)
    fun _ _ stopped => stopped.imp_left And.left

theorem Decided.then_quiet {α β : Type} {first : Command α} {next : α → Command β}
    {requests : List Nat} (decided : Decided host requests first h)
    (quiet : ∀ value, Quiet (next value)) : Decided host requests (first >>= next) h := by
  rw [← List.append_nil requests]
  exact decided.bind fun value _ writable => (quiet value).decided writable

theorem newVkRecord_decided (writable : h.writable = true) (vallistOffs i : Nat) (val : SetValue) :
    Decided host [Vk.sizeof + val.key.strlen] (newVkRecord host vallistOffs i val) h := by
  refine (allocateBlock_decided writable).then_quiet fun vkOffs => ?_
  exact (Quiet.wrBytes _ _).bind fun _ => (Quiet.wrBytes _ _).bind fun _ =>
    (Quiet.wrBytes _ _).bind fun _ => (Quiet.wrBytes _ _).bind fun _ =>
    (Quiet.wrBytes _ _).bind fun _ => (Quiet.wrBytes _ _).bind fun _ => Quiet.pure _

theorem storeData_decided (writable : h.writable = true) (vkOffs : Nat) (value : List UInt8) :
    Decided host (dataRequests value) (storeData host vkOffs value) h := by
  unfold storeData dataRequests
  split
  · exact (Quiet.wrBytes _ _).decided writable
  · exact (allocateBlock_decided writable).then_quiet fun offs =>
      (Quiet.wrBytes _ _).bind fun _ => Quiet.wrBytes _ _

theorem Quiet.raiseWord (base i v : Nat) : Quiet (raiseWord base i v) := by
  refine (Quiet.rdLe _ _ _).bind fun word => ?_
  split
  · exact Quiet.wrBytes _ _
  · exact Quiet.pure _

theorem setOneValue_decided (writable : h.writable = true) (node vallistOffs i : Nat)
    (val : SetValue) : Decided host val.requests (setOneValue host node vallistOffs i val) h := by
  refine (newVkRecord_decided writable vallistOffs i val).bind fun vkOffs h' write => ?_
  exact (storeData_decided write vkOffs val.value).then_quiet fun _ =>
    (Quiet.raiseWord _ _ _).bind fun _ => Quiet.raiseWord _ _ _

theorem setEachValue_decided (writable : h.writable = true) (node vallistOffs : Nat)
    (values : List (SetValue × Nat)) :
    Decided host (values.flatMap fun entry => entry.1.requests)
      (values.forM fun (val, i) => setOneValue host node vallistOffs i val) h := by
  induction values generalizing h with
  | nil => exact (Quiet.pure _).decided writable
  | cons entry rest ih =>
      exact (setOneValue_decided writable node vallistOffs entry.2 entry.1).bind
        fun _ h' write => ih write

theorem storeValues_decided (writable : h.writable = true) (node : Nat) (values : List SetValue) :
    Decided host (arrayRequests values) (storeValues host node values) h := by
  have each : values.zipIdx.flatMap (fun entry => entry.1.requests) =
      values.flatMap SetValue.requests := by
    conv_rhs => rw [← List.zipIdx_map_fst 0 values, List.flatMap_map]
  unfold arrayRequests
  rw [← each]
  refine (allocateBlock_decided writable).bind fun vallistOffs h' write => ?_
  refine Quiet.before (Quiet.wrBytes _ _) (fun _ _ halts => Or.inr halts) fun _ g room kept => ?_
  refine Quiet.before (Quiet.wrBytes _ _) (fun _ _ halts => Or.inr halts) fun _ g' room' kept' => ?_
  rw [← room, ← room']
  exact setEachValue_decided (kept'.trans (kept.trans write)) node vallistOffs _

end Deciding

/-- One call that writes values. -/
inductive ValueWrite where
  | setValues (values : List SetValue)
  | setValue (val : SetValue)

namespace ValueWrite

def run (host : Host) (node : Nat) : ValueWrite → Command Unit
  | .setValues values => hivexNodeSetValues host node values
  | .setValue val => hivexNodeSetValue host node val

/-- The array that the call stores. -/
def array (h : Hive) (node : Nat) : ValueWrite → List SetValue
  | .setValues values => values
  | .setValue val =>
      match (hivexNodeValues node >>= fun prev => prev.mapM readValue) h.view with
      | .ok prev => editValues val prev
      | .error _ => []

end ValueWrite

/-- The values of a node can be read. -/
def ReadsValues (h : Hive) (node : Nat) : Prop :=
  ∃ values, hivexNodeValues node h.view = .ok values ∧ ∀ v ∈ values,
    (∃ key, hivexValueKey v h.view = .ok key) ∧ ∃ value, hivexValueValue v h.view = .ok value

/-- The node has the same list of values, each with the same key, type and data. -/
def SameValues (h h' : Hive) (node : Nat) : Prop :=
  hivexNodeValues node h'.view = hivexNodeValues node h.view ∧
    ∀ values, hivexNodeValues node h.view = .ok values → ∀ v ∈ values,
      hivexValueKey v h'.view = hivexValueKey v h.view ∧
      hivexValueType v h'.view = hivexValueType v h.view ∧
      hivexValueValue v h'.view = hivexValueValue v h.view

/-- When the call returns an error, the handle can still be used and the values of the
node are as before. -/
def LosesNothing (host : Host) (h : Hive) (node : Nat) (call : ValueWrite) : Prop :=
  wp (call.run host node) (fun _ _ => True)
    (fun stop h' => ¬Halts stop → stop ≠ .dangling ∧ SameValues h h' node) h

/-- Nothing is stored, or every block is granted, or there was nothing to lose when
the value list was refused. -/
def KeepsValues (host : Host) (h : Hive) (node : Nat) (array : List SetValue) : Prop :=
  array = [] ∨ (∃ room, h.room.blocks host (arrayRequests array) = .ok room) ∨
    hivexNodeValues node h.view = .ok [] ∧
      ∃ code, h.room.block host (listRequest array) = .error (.errno code)

section Deleting
variable {h : Hive} {host : Host} {node : Nat} {values blocks : List Nat}

theorem getValues_empty (read : hivexNodeValues node h.view = .ok []) :
    getValues node h.view = .ok ([], []) := by
  cases got : getValues node h.view with
  | error stop =>
      simp only [hivexNodeValues, bind_query, got, error_bind] at read
      cases read
  | ok result =>
      obtain ⟨values, blocks⟩ := result
      simp only [hivexNodeValues, bind_query, got, ok_bind, pure_query, Except.ok.injEq] at read
      subst read
      have shape : Ends (getValues node h.view) (fun r => r.1 = [] → r = ([], [])) fun _ => True := by
        refine Ends.after fun _ _ => Ends.after fun count _ => ?_
        dsimp only
        split
        · exact fun _ => rfl
        rename_i some_values
        split
        · trivial
        refine Ends.after fun offset _ => Ends.after fun valid _ => ?_
        split
        swap
        · trivial
        refine Ends.after fun len _ => ?_
        split
        · trivial
        have counted : Ends (((List.range count).mapM (getValueOffset (offset + 0x1000))) h.view)
            (List.Forall₂ (fun _ _ => True) (List.range count)) fun _ => True :=
          Ends.mapM _ _ _ _ fun i _ => by
            cases getValueOffset (offset + 0x1000) i h.view <;> trivial
        refine counted.seq fun ys related empty => ?_
        have length := related.length_eq
        rw [show ys = [] from empty, List.length_range] at length
        exact absurd length some_values
      rw [got] at shape
      exact congrArg Except.ok (shape rfl)

theorem requireBlock_ok_iff {off : Nat} {eqid : List UInt8} :
    requireBlock off eqid h.view = .ok () ↔
      h.valid off = true ∧ blockIdEq off eqid h.view = .ok true := by
  simp only [requireBlock, bind_query, isValidBlock_view, ok_bind]
  cases h.valid off with
  | false => simp
  | true =>
      simp only [if_true, bind_query, true_and]
      cases blockIdEq off eqid h.view with
      | error stop => simp
      | ok same => cases same <;> simp

theorem wp_wrBytes {i : Nat} {bytes : List UInt8} {post : Unit → Hive → Prop}
    {stop : Stop → Hive → Prop}
    (continues : i + bytes.length ≤ h.size → post () { h with addr := blit h.addr i bytes })
    (outside : stop .outside h) : wp (wrBytes i bytes) post stop h := by
  by_cases inside : i + bytes.length ≤ h.size
  · exact wp_of_ok (wrBytes_run inside) (continues inside)
  · simp only [wp, wrBytes, inside, if_false]
    exact outside

theorem deleteValues_quiet (writable : h.writable = true)
    (read : getValues node h.view = .ok (values, blocks)) :
    wp (deleteValues node) (fun _ h' => h'.room = h.room ∧ h'.writable = true)
      (fun stop _ => Halts stop) h := by
  refine (wp_bind _ _ _).mpr ((wp_get _).mpr ((wp_bind _ _ _).mpr (wp_assert writable ?_)))
  refine (wp_bind _ _ _).mpr (wp_read read ?_)
  have quiet : Quiet (do
      blocks.forM markBlockUnused
      values.forM deleteValue
      wr32 (node + Nk.nrValues) 0
      wr32 (node + Nk.vallist) 0xffffffff) :=
    (Quiet.forM _ Quiet.markBlockUnused _).bind fun _ =>
      (Quiet.forM _ Quiet.deleteValue _).bind fun _ =>
      (Quiet.wrBytes _ _).bind fun _ => Quiet.wrBytes _ _
  exact wp_mono (quiet h) (fun _ _ kept => ⟨kept.1, kept.2.trans writable⟩) fun _ _ halts => halts

-- Deleting no values leaves a node without values.
theorem deleteValues_none (writable : h.writable = true)
    (read : hivexNodeValues node h.view = .ok []) :
    wp (deleteValues node) (fun _ h' => hivexNodeValues node h'.view = .ok [])
      (fun stop _ => Halts stop) h := by
  have got := getValues_empty read
  refine (wp_bind _ _ _).mpr ((wp_get _).mpr ((wp_bind _ _ _).mpr (wp_assert writable ?_)))
  refine (wp_bind _ _ _).mpr (wp_read got ?_)
  show wp (wr32 (node + Nk.nrValues) 0 >>= fun _ => wr32 (node + Nk.vallist) 0xffffffff) _ _ h
  refine (wp_bind _ _ _).mpr (wp_wrBytes (fun _ => ?_) (Or.inr rfl))
  refine wp_wrBytes (fun inside => ?_) (Or.inr rfl)
  set addr := blit (blit h.addr (node + Nk.nrValues) (leBytes 4 0)) (node + Nk.vallist)
    (leBytes 4 0xffffffff) with addrEq
  have id : slice addr (node + 4) 2 = slice h.addr (node + 4) 2 := by
    rw [addrEq, slice_blit_outside _ _ _ _ _ (Or.inl (by simp only [Nk.vallist]; omega)),
      slice_blit_outside _ _ _ _ _ (Or.inl (by simp only [Nk.nrValues]; omega))]
  have count : ByteMemory.get32 addr (node + Nk.nrValues) = 0 := by
    have outer := getLe_blit_outside (blit h.addr (node + Nk.nrValues) (leBytes 4 0))
      (node + Nk.vallist) (leBytes 4 0xffffffff) (node + Nk.nrValues) 4
      (Or.inl (by simp only [Nk.vallist, Nk.nrValues]; omega))
    exact outer.trans ((getLe_blit_leBytes _ _ _ _).trans rfl)
  have whole : node + 48 ≤ h.size := by
    rw [leBytes_length] at inside
    simpa only [Nk.vallist, Nat.add_assoc] using inside
  have checked : requireBlock node Nk.id h.view = .ok () := by
    cases result : requireBlock node Nk.id h.view with
    | ok => rfl
    | error stop => simp only [getValues, bind_query, result, error_bind, reduceCtorEq] at got
  have idRead : ∀ g : Hive, g.size = h.size → blockIdEq node Nk.id g.view =
      .ok (decide (slice g.addr (node + 4) 2 = Nk.id)) := fun g size => by
    rw [blockIdEq, bind_query, rdBytes_view (by omega)]
    rfl
  have rechecked : requireBlock node Nk.id ({ h with addr := addr } : Hive).view = .ok () := by
    rw [requireBlock_ok_iff, idRead h rfl] at checked
    rw [requireBlock_ok_iff, idRead ({ h with addr := addr } : Hive) rfl, id]
    exact checked
  have counted : rd32 node Nk.nrValues ({ h with addr := addr } : Hive).view = .ok 0 := by
    rw [← count]
    exact rdLe_view (by show node + 40 + 4 ≤ h.size; omega)
  have reread : getValues node ({ h with addr := addr } : Hive).view = .ok ([], []) := by
    simp only [getValues, bind_query, rechecked, ok_bind, counted, if_true]
    rfl
  simp only [hivexNodeValues, bind_query, reread, ok_bind, pure_query]

end Deleting

section Keeping
variable {h : Hive} {host : Host} {node : Nat} {values : List Nat} {array : List SetValue}

theorem getValues_of_values (read : hivexNodeValues node h.view = .ok values) :
    requireBlock node Nk.id h.view = .ok () ∧
      ∃ blocks, getValues node h.view = .ok (values, blocks) := by
  cases got : getValues node h.view with
  | error stop =>
      simp only [hivexNodeValues, bind_query, got, error_bind] at read
      cases read
  | ok result =>
      simp only [hivexNodeValues, bind_query, got, ok_bind, pure_query, Except.ok.injEq] at read
      subst read
      refine ⟨?_, result.2, rfl⟩
      cases checked : requireBlock node Nk.id h.view with
      | ok => rfl
      | error stop => simp only [getValues, bind_query, checked, error_bind, reduceCtorEq] at got

-- The call after its two tests.
theorem wp_setValues {post : Unit → Hive → Prop} {stop : Stop → Hive → Prop}
    (writable : h.writable = true) (read : hivexNodeValues node h.view = .ok values)
    (holds : wp (deleteValues node >>= fun _ => if array.length = 0 then pure () else
      storeValues host node array) post stop h) :
    wp (hivexNodeSetValues host node array) post stop h := by
  unfold hivexNodeSetValues
  refine (wp_bind _ _ _).mpr ((wp_get _).mpr ?_)
  simp only [writable, Bool.not_true, Bool.false_eq_true, if_false]
  refine (wp_bind _ _ _).mpr (wp_read (getValues_of_values read).1 ?_)
  exact holds

theorem hivexNodeSetValues_keeps (writable : h.writable = true)
    (read : hivexNodeValues node h.view = .ok values) (keeps : KeepsValues host h node array) :
    wp (hivexNodeSetValues host node array) (fun _ _ => True)
      (fun stop h' => ¬Halts stop → stop ≠ .dangling ∧ SameValues h h' node) h := by
  obtain ⟨_, blocks, got⟩ := getValues_of_values read
  refine wp_setValues writable read ?_
  have deleted := deleteValues_quiet writable got
  rcases keeps with rfl | ⟨room, granted⟩ | ⟨none, code, refused⟩
  · exact wp_seq (wp_mono deleted (fun _ _ done => done) fun _ _ halts running => absurd halts running)
      fun _ _ _ => trivial
  · refine wp_seq (wp_mono deleted (fun _ _ done => done) fun _ _ halts running => absurd halts running) ?_
    rintro _ g ⟨same, write⟩
    split
    · trivial
    · refine wp_mono (storeValues_decided write node array) (fun _ _ _ => trivial) ?_
      rintro stop g' (refused | halts) running
      · rw [same, granted] at refused
        cases refused
      · exact absurd halts running
  · refine wp_seq (wp_mono (wp_and deleted (deleteValues_none writable none)) (fun _ _ done => done)
      fun _ _ halts running => absurd halts.1 running) ?_
    rintro _ g ⟨⟨same, write⟩, empty⟩
    split
    · trivial
    · refine wp_seq (wp_mono (allocateBlock_decides write) (fun _ _ done => done) ?_) ?_
      · rintro stop g' (⟨decided, rfl⟩ | halts) running
        · rw [same] at decided
          have isCode := decided.symm.trans refused
          cases isCode
          refine ⟨by simp, empty.trans none.symm, fun vs isNone v member => ?_⟩
          rw [none] at isNone
          cases isNone
          cases member
        · exact absurd halts running
      · rintro offs g' ⟨granted, _⟩
        rw [same] at granted
        have both := granted.symm.trans refused
        cases both

theorem readValues_run (reads : ReadsValues h node) :
    ∃ values prev, hivexNodeValues node h.view = .ok values ∧
      (values.mapM readValue) h.view = .ok prev := by
  obtain ⟨values, read, each⟩ := reads
  have all : Ends ((values.mapM readValue) h.view) (List.Forall₂ (fun _ _ => True) values)
      fun _ => False := Ends.mapM _ _ _ _ fun v member => by
    obtain ⟨⟨key, keyRead⟩, value, valueRead⟩ := each v member
    simp only [readValue, bind_query, valueRead, ok_bind, keyRead, pure_query, ends_ok]
  cases got : (values.mapM readValue) h.view with
  | ok prev => exact ⟨values, prev, read, got⟩
  | error stop =>
      rw [got] at all
      cases all

-- Where the values can be read, `hivex_node_set_value` stores the edited array.
theorem ValueWrite.run_eq (reads : ReadsValues h node) (call : ValueWrite) :
    call.run host node h = hivexNodeSetValues host node (call.array h node) h := by
  cases call with
  | setValues values => rfl
  | setValue val =>
      obtain ⟨values, prev, read, prevRead⟩ := readValues_run reads
      have both : (hivexNodeValues node >>= fun prev => prev.mapM readValue) h.view = .ok prev := by
        rw [bind_query, read]
        exact prevRead
      have first : (Hivex.read (hivexNodeValues node)) h = .ok values h := by
        simp only [Hivex.read, look, read]
      have second : (Hivex.read (values.mapM readValue)) h = .ok prev h := by
        simp only [Hivex.read, look, prevRead]
      simp only [ValueWrite.array, both]
      exact (run_ok first).trans (run_ok second)

end Keeping

/-- The blocks that are freed with a value. -/
def Cells.releases (cells : Cells) (v : Nat) : List Nat :=
  match cells v with
  | none => []
  | some c => if 2 ^ 31 ≤ c.get32 Vk.dataLen then [v] else [c.get32 Vk.dataOffset + 0x1000, v]

/-- The blocks that are freed with the old values are in use, and none is freed twice. -/
structure Releasable (h : Hive) (node : Nat) : Prop where
  record : ∃ c, h.cell node = some c ∧ 80 ≤ c.len
  freed : ∀ values blocks, getValues node h.view = .ok (values, blocks) →
    (∀ v ∈ values, ∃ c, h.cell v = some c ∧ 16 ≤ c.len) ∧
    (blocks ++ values.flatMap h.cell.releases).Nodup ∧
    node ∉ blocks ++ values.flatMap h.cell.releases ∧
    ∀ b ∈ blocks ++ values.flatMap h.cell.releases, (h.cell b).isSome

/-- `g` is `h` without the blocks in `freed`. -/
structure Freed (h g : Hive) (freed : List Nat) : Prop where
  sound : Sound g
  keeps : Keeps h g
  cells : ∀ x, g.cell x = if x ∈ freed then none else h.cell x

section Releasing
variable {h : Hive} {node : Nat}

theorem Freed.append {g k : Hive} {front back : List Nat} (first : Freed h g front)
    (second : Freed g k back) : Freed h k (front ++ back) := by
  refine ⟨second.sound, first.keeps.trans second.keeps, fun x => ?_⟩
  rw [second.cells, first.cells]
  by_cases inBack : x ∈ back <;> by_cases inFront : x ∈ front <;> simp [inBack, inFront]

theorem Sound.freed_one (sound : Sound h) (writable : h.writable = true) {b : Nat}
    (there : (h.cell b).isSome) :
    wp (markBlockUnused b) (fun _ g => Freed h g [b]) (fun _ _ => False) h := by
  obtain ⟨c, found⟩ := Option.isSome_iff_exists.mp there
  refine sound.wp_free writable found fun g becomes => ⟨becomes.sound, becomes.keeps, fun x => ?_⟩
  rw [becomes.cells]
  by_cases here : x = b
  · subst here
    simp
  · simp [here]

-- The blocks still to be freed are as before.
theorem Freed.there {g : Hive} {front back : List Nat} (first : Freed h g front)
    (apart : (front ++ back).Nodup) (there : ∀ b ∈ front ++ back, (h.cell b).isSome) :
    ∀ b ∈ back, g.cell b = h.cell b ∧ (g.cell b).isSome := by
  intro b inBack
  have notFreed : b ∉ front := fun inFront => (List.nodup_append.mp apart).2.2 b inFront b inBack rfl
  have same : g.cell b = h.cell b := by rw [first.cells, if_neg notFreed]
  exact ⟨same, by rw [same]; exact there b (List.mem_append_right _ inBack)⟩

theorem Sound.freed_all (sound : Sound h) (writable : h.writable = true) {bs : List Nat}
    (apart : bs.Nodup) (there : ∀ b ∈ bs, (h.cell b).isSome) :
    wp (bs.forM markBlockUnused) (fun _ g => Freed h g bs) (fun _ _ => False) h := by
  induction bs generalizing h with
  | nil => exact ⟨sound, Keeps.refl h, fun x => by simp⟩
  | cons b bs ih =>
      refine wp_seq (sound.freed_one writable (there b (by simp))) fun _ g first => ?_
      have later := @Freed.there h g [b] bs first apart there
      refine wp_mono (ih first.sound (first.keeps.writable.trans writable) (List.nodup_cons.mp apart).2
        fun x member => (later x member).2) ?_ fun _ _ never => never
      exact fun _ k rest => first.append rest

theorem releases_cell {v : Nat} {c : Cell} (found : h.cell v = some c) : h.cell.releases v =
    if 2 ^ 31 ≤ c.get32 Vk.dataLen then [v] else [c.get32 Vk.dataOffset + 0x1000, v] := by
  simp only [Cells.releases, found]

theorem releases_own {v : Nat} {c : Cell} (found : h.cell v = some c) : v ∈ h.cell.releases v := by
  rw [releases_cell found]
  split <;> simp

theorem releases_congr {g : Hive} {values : List Nat}
    (kept : ∀ v ∈ values, g.cell v = h.cell v) :
    values.flatMap g.cell.releases = values.flatMap h.cell.releases := by
  simp only [List.flatMap_def]
  congr 1
  exact List.map_congr_left fun v member => by simp only [Cells.releases, kept v member]

theorem Sound.freed_value (sound : Sound h) (writable : h.writable = true) {v : Nat}
    (long : ∃ c, h.cell v = some c ∧ 16 ≤ c.len) (apart : (h.cell.releases v).Nodup)
    (there : ∀ b ∈ h.cell.releases v, (h.cell b).isSome) :
    wp (deleteValue v) (fun _ g => Freed h g (h.cell.releases v)) (fun _ _ => False) h := by
  obtain ⟨c, found, len⟩ := long
  have lenWord := rd32_cell (i := Vk.dataLen) sound found (by simp only [Vk.dataLen]; omega)
  have offsetWord := rd32_cell (i := Vk.dataOffset) sound found (by simp only [Vk.dataOffset]; omega)
  refine (wp_bind _ _ _).mpr (wp_read lenWord ?_)
  rw [releases_cell found] at apart there ⊢
  by_cases isInline : 2 ^ 31 ≤ c.get32 Vk.dataLen
  · simp only [isInline, decide_true, Bool.not_true, Bool.false_eq_true, if_false, if_true] at *
    exact sound.freed_one writable (there v (by simp))
  · simp only [isInline, decide_false, Bool.not_false, if_true, if_false] at *
    refine (wp_bind _ _ _).mpr (wp_read offsetWord ?_)
    refine wp_seq (sound.freed_one writable (there _ (by simp))) fun _ g first => ?_
    have later := @Freed.there h g [c.get32 Vk.dataOffset + 0x1000] [v] first apart there
    refine wp_mono (first.sound.freed_one (first.keeps.writable.trans writable)
      (later v (by simp)).2) (fun _ k rest => first.append rest) fun _ _ never => never

theorem Sound.freed_values (sound : Sound h) (writable : h.writable = true) {values : List Nat}
    (long : ∀ v ∈ values, ∃ c, h.cell v = some c ∧ 16 ≤ c.len)
    (apart : (values.flatMap h.cell.releases).Nodup)
    (there : ∀ b ∈ values.flatMap h.cell.releases, (h.cell b).isSome) :
    wp (values.forM deleteValue) (fun _ g => Freed h g (values.flatMap h.cell.releases))
      (fun _ _ => False) h := by
  induction values generalizing h with
  | nil => exact ⟨sound, Keeps.refl h, fun x => by simp⟩
  | cons v values ih =>
      rw [List.flatMap_cons] at apart there ⊢
      have parts := List.nodup_append.mp apart
      refine wp_seq (sound.freed_value writable (long v (by simp)) parts.1 fun b member =>
        there b (List.mem_append_left _ member)) fun _ g first => ?_
      have later := first.there apart there
      have kept : ∀ w ∈ values, g.cell w = h.cell w := fun w member => by
        obtain ⟨c, found, _⟩ := long w (List.mem_cons_of_mem _ member)
        exact (later w (List.mem_flatMap.mpr ⟨w, member, releases_own found⟩)).1
      have same := releases_congr kept
      refine wp_mono (ih first.sound (first.keeps.writable.trans writable) (fun w member => ?_) ?_ ?_)
        ?_ fun _ _ never => never
      · rw [kept w member]
        exact long w (List.mem_cons_of_mem _ member)
      · rw [same]
        exact parts.2.1
      · rw [same]
        exact fun b member => (later b member).2
      · rw [same]
        exact fun _ k rest => first.append rest

/-- What `delete_values` leaves of the node. -/
structure Emptied (h g : Hive) (node : Nat) : Prop where
  sound : Sound g
  keeps : Keeps h g
  record : ∃ c, g.cell node = some c ∧ 80 ≤ c.len ∧ c.id = Nk.id ∧ c.get32 Nk.nrValues = 0

theorem Releasable.emptied (releasable : Releasable h node) (sound : Sound h)
    (writable : h.writable = true) {values blocks : List Nat}
    (got : getValues node h.view = .ok (values, blocks))
    (checked : requireBlock node Nk.id h.view = .ok ()) :
    wp (deleteValues node) (fun _ g => Emptied h g node) (fun _ _ => False) h := by
  obtain ⟨c, found, len⟩ := releasable.record
  obtain ⟨long, apart, notFreed, there⟩ := releasable.freed values blocks got
  have parts := List.nodup_append.mp apart
  have isNk : c.id = Nk.id := by
    rw [requireBlock_cell sound found] at checked
    by_contra other
    rw [if_neg other] at checked
    cases checked
  refine (wp_bind _ _ _).mpr ((wp_get _).mpr ((wp_bind _ _ _).mpr (wp_assert writable ?_)))
  refine (wp_bind _ _ _).mpr (wp_read got ?_)
  refine wp_seq (sound.freed_all writable parts.1 fun b member =>
    there b (List.mem_append_left _ member)) fun _ g lists => ?_
  have later := lists.there apart there
  have kept : ∀ v ∈ values, g.cell v = h.cell v := fun v member => by
    obtain ⟨c, found, _⟩ := long v member
    exact (later v (List.mem_flatMap.mpr ⟨v, member, releases_own found⟩)).1
  have same := releases_congr kept
  refine wp_seq (lists.sound.freed_values (lists.keeps.writable.trans writable)
    (fun v member => by rw [kept v member]; exact long v member) (by rw [same]; exact parts.2.1)
    (by rw [same]; exact fun b member => (later b member).2)) fun _ k rest => ?_
  rw [same] at rest
  have all := lists.append rest
  have nodeCell : k.cell node = some c := by rw [all.cells, if_neg notFreed, found]
  refine (wp_bind _ _ _).mpr (all.sound.wp_write nodeCell (by decide)
    (by rw [leBytes_length]; simp only [Nk.nrValues]; omega) fun k₁ first => ?_)
  have nodeCell₁ : k₁.cell node = some (c.put32 Nk.nrValues 0) := by
    rw [first.cells, Function.update_self]
    rfl
  refine first.sound.wp_write nodeCell₁ (by decide)
    (by rw [leBytes_length]; simp only [Nk.vallist, Cell.put_len]; omega) fun k₂ second => ?_
  refine ⟨second.sound, all.keeps.trans (first.keeps.trans second.keeps),
    (c.put32 Nk.nrValues 0).put32 Nk.vallist 0xffffffff, ?_, len, ?_, ?_⟩
  · rw [second.cells, Function.update_self]
    rfl
  · rw [Cell.id_put _ (by decide), Cell.id_put _ (by decide)]
    exact isNk
  · rw [Cell.get32, Cell.get_put _ (Or.inl (by decide)), Cell.get_put_same]
    rfl

end Releasing

/-- While the array is stored: the node names the new value list `vl`, and the first
entry of that list is still zero or names a new block. -/
structure Storing (h g : Hive) (node vl n : Nat) : Prop where
  sound : Sound g
  keeps : Keeps h g
  small : g.size < 2 ^ 32
  record : ∃ c, g.cell node = some c ∧ 80 ≤ c.len ∧ c.get32 Nk.nrValues = n ∧
    c.get32 Nk.vallist + 0x1000 = vl
  list : ∃ l, g.cell vl = some l ∧ 4 + 4 * n ≤ l.len ∧
    (l.get32 (ValueList.offset 0) = 0 ∨ h.frontier ≤ l.get32 (ValueList.offset 0) + 0x1000)
  apart : node ≠ vl

section Storing

-- A refused allocation makes the call return.
theorem refusal_returns {host : Host} {h : Hive} {segLen : Nat} {reason : Stop}
    (kind : reason = .dangling ∧ host.Unsteady ∨ reason = .errno .ENOMEM ∨
      reason = .errno .EROFS ∧ h.writable = false ∨
      reason = .errno .ERANGE ∧ (segLen < 4 ∨ hiveMaxAllocation < segLen)) :
    ¬Halts reason ∧ (reason ≠ .dangling → ∃ code, reason = .errno code) := by
  rcases kind with ⟨rfl, _⟩ | rfl | ⟨rfl, _⟩ | ⟨rfl, _⟩ <;> simp [Halts]

variable {h g : Hive} {host : Host} {node vl n : Nat}

theorem Storing.other (storing : Storing h g node vl n) {g' : Hive} {cells : Cells}
    (becomes : Becomes g g' cells) (nodeSame : cells node = g.cell node)
    (listSame : cells vl = g.cell vl) : Storing h g' node vl n where
  sound := becomes.sound
  keeps := storing.keeps.trans becomes.keeps
  small := becomes.keeps.small storing.small
  record := by rw [becomes.cells, nodeSame]; exact storing.record
  list := by rw [becomes.cells, listSame]; exact storing.list
  apart := storing.apart

-- A write to a third block.
theorem Storing.wp_write (storing : Storing h g node vl n) {b i : Nat} {c : Cell} {bytes : List UInt8}
    {post : Unit → Hive → Prop} {stop : Stop → Hive → Prop} (found : g.cell b = some c)
    (notNode : b ≠ node) (notList : b ≠ vl) (lower : 4 ≤ i) (upper : i + bytes.length ≤ c.len)
    (continues : ∀ g' c', Storing h g' node vl n → g'.cell b = some c' → c'.len = c.len → post () g') :
    wp (wrBytes (b + i) bytes) post stop g :=
  storing.sound.wp_write found lower upper fun g' becomes => continues g' (c.blit i bytes)
    (storing.other becomes (Function.update_of_ne notNode.symm _ _)
      (Function.update_of_ne notList.symm _ _))
    (by rw [becomes.cells, Function.update_self]) rfl

-- A new block is a third block.
theorem Storing.wp_alloc (storing : Storing h g node vl n) (below : host.Below4G) {segLen : Nat}
    {id : List UInt8} (idFits : id.length ≤ 2) {post : Nat → Hive → Prop}
    {stop : Stop → Hive → Prop} (fails : ∀ reason, ¬Halts reason → stop reason g)
    (continues : ∀ b g', Storing h g' node vl n → h.frontier ≤ b → b < 2 ^ 32 →
      (∀ x d, g.cell x = some d → b ≠ x ∧ g'.cell x = some d) →
      (∃ c, g'.cell b = some c ∧ segLen ≤ c.len) → post b g') :
    wp (allocateBlock host segLen id) post stop g := by
  refine wp_mono (storing.sound.allocateBlock below idFits) ?_ ?_
  · rintro b g' ⟨placed, least, most, _⟩
    have beyond := storing.sound.cell_beyond placed.fresh
    have others : ∀ x d, g.cell x = some d → b ≠ x ∧ g'.cell x = some d := by
      intro x d there
      have apart : b ≠ x := by
        rintro rfl
        rw [there] at beyond
        cases beyond
      exact ⟨apart, by rw [placed.becomes.cells, Function.update_of_ne apart.symm, there]⟩
    obtain ⟨c, nodeCell, _⟩ := storing.record
    obtain ⟨l, listCell, _⟩ := storing.list
    have storing' := storing.other placed.becomes
      (Function.update_of_ne (others node c nodeCell).1.symm _ _)
      (Function.update_of_ne (others vl l listCell).1.symm _ _)
    have found : g'.cell b = some (freshCell ((segLen + 7) / 8 * 8) id) := by
      rw [placed.becomes.cells, Function.update_self]
    have bounds := placed.becomes.sound.cell_bounds found
    have small := storing'.small
    refine continues b g' storing' (storing.keeps.frontier.trans placed.fresh) (by omega) others
      ⟨_, found, ?_⟩
    show segLen ≤ (segLen + 7) / 8 * 8
    omega
  · rintro reason g' ⟨rfl, kind⟩
    exact fails reason (refusal_returns kind).1

-- The first entry becomes a new block and never changes again.
theorem Storing.wp_entry (storing : Storing h g node vl n) {i vk : Nat} (inside : i < n)
    (fresh : h.frontier ≤ vk) (low : 0x1000 ≤ vk) (small : vk < 2 ^ 32) {post : Unit → Hive → Prop}
    {stop : Stop → Hive → Prop}
    (continues : ∀ g', Storing h g' node vl n → (∀ x, x ≠ vl → g'.cell x = g.cell x) → post () g') :
    wp (wr32 (vl + ValueList.offset i) (vk - 0x1000)) post stop g := by
  obtain ⟨l, found, len, first⟩ := storing.list
  refine storing.sound.wp_write found (by simp only [ValueList.offset]; omega)
    (by rw [leBytes_length]; simp only [ValueList.offset]; omega) fun g' becomes => ?_
  have others : ∀ x, x ≠ vl → g'.cell x = g.cell x := fun x other => by
    rw [becomes.cells, Function.update_of_ne other]
  refine continues g' ⟨becomes.sound, storing.keeps.trans becomes.keeps,
    becomes.keeps.small storing.small, ?_, ⟨l.put32 (ValueList.offset i) (vk - 0x1000),
      by rw [becomes.cells, Function.update_self]; rfl, len, ?_⟩, storing.apart⟩ others
  · rw [others node storing.apart]
    exact storing.record
  · by_cases isFirst : i = 0
    · subst isFirst
      have stored : (l.put32 (ValueList.offset 0) (vk - 0x1000)).get32 (ValueList.offset 0) =
          (vk - 0x1000) % 256 ^ 4 := Cell.get_put_same _ _ _ _
      right
      rw [stored]
      omega
    · have kept : (l.put32 (ValueList.offset i) (vk - 0x1000)).get32 (ValueList.offset 0) =
          l.get32 (ValueList.offset 0) :=
        Cell.get_put _ (Or.inl (by simp only [ValueList.offset]; omega))
      exact kept ▸ first

theorem Storing.newVkRecord (storing : Storing h g node vl n) (below : host.Below4G) {i : Nat}
    (inside : i < n) (val : SetValue) :
    wp (newVkRecord host vl i val)
      (fun vk g' => Storing h g' node vl n ∧ vk ≠ node ∧ vk ≠ vl ∧
        ∃ c, g'.cell vk = some c ∧ Vk.sizeof + val.key.strlen ≤ c.len)
      (fun reason g' => ¬Halts reason ∧ Storing h g' node vl n) g := by
  refine (wp_bind _ _ _).mpr (storing.wp_alloc below (by decide) (fun _ returns => ⟨returns, storing⟩) ?_)
  rintro vk g₀ storing₀ fresh small others ⟨c, found, long⟩
  obtain ⟨_, nodeCell, _⟩ := storing.record
  obtain ⟨_, listCell, _⟩ := storing.list
  have notNode := (others node _ nodeCell).1
  have notList := (others vl _ listCell).1
  have bounds := storing₀.sound.cell_bounds found
  simp only [Vk.sizeof, CString.strlen] at long
  refine (wp_bind _ _ _).mpr (storing₀.wp_entry inside fresh (by omega) small ?_)
  intro g₁ storing₁ kept
  rw [← kept vk notList] at found
  refine (wp_bind _ _ _).mpr (storing₁.wp_write found notNode notList (by decide)
    (by rw [leBytes_length]; simp only [Vk.nameLen]; omega) fun g₂ c₂ storing₂ found₂ len₂ => ?_)
  refine (wp_bind _ _ _).mpr (storing₂.wp_write found₂ notNode notList (by decide)
    (by rw [List.length_append, List.length_singleton]; simp only [Vk.name]; omega)
    fun g₃ c₃ storing₃ found₃ len₃ => ?_)
  refine (wp_bind _ _ _).mpr (storing₃.wp_write found₃ notNode notList (by decide)
    (by rw [leBytes_length]; simp only [Vk.dataType]; omega) fun g₄ c₄ storing₄ found₄ len₄ => ?_)
  refine (wp_bind _ _ _).mpr (storing₄.wp_write found₄ notNode notList (by decide)
    (by rw [leBytes_length]; simp only [Vk.dataLen]; omega) fun g₅ c₅ storing₅ found₅ len₅ => ?_)
  refine (wp_bind _ _ _).mpr (storing₅.wp_write found₅ notNode notList (by decide)
    (by rw [leBytes_length]; simp only [Vk.flags]; omega) fun g₆ c₆ storing₆ found₆ len₆ => ?_)
  exact ⟨storing₆, notNode, notList, c₆, found₆, by simp only [Vk.sizeof, CString.strlen]; omega⟩

theorem Storing.storeData (storing : Storing h g node vl n) (below : host.Below4G) {vk : Nat}
    {c : Cell} (notNode : vk ≠ node) (notList : vk ≠ vl) (found : g.cell vk = some c)
    (long : Vk.sizeof ≤ c.len) (value : List UInt8) :
    wp (storeData host vk value) (fun _ g' => Storing h g' node vl n)
      (fun reason g' => ¬Halts reason ∧ Storing h g' node vl n) g := by
  simp only [Vk.sizeof] at long
  unfold Hivex.storeData
  split
  · exact storing.wp_write found notNode notList (by decide) (by simp only [Vk.dataOffset]; omega)
      fun g' _ storing' _ _ => storing'
  · refine (wp_bind _ _ _).mpr (storing.wp_alloc below (by decide) (fun _ returns => ⟨returns, storing⟩) ?_)
    rintro offs g₀ storing₀ fresh small others ⟨d, foundData, longData⟩
    obtain ⟨_, nodeCell, _⟩ := storing.record
    obtain ⟨_, listCell, _⟩ := storing.list
    obtain ⟨apart, foundVk⟩ := others vk c found
    refine (wp_bind _ _ _).mpr (storing₀.sound.wp_write foundData (by decide) (by omega) fun g₁ becomes => ?_)
    have storing₁ := storing₀.other becomes
      (Function.update_of_ne (others node _ nodeCell).1.symm _ _)
      (Function.update_of_ne (others vl _ listCell).1.symm _ _)
    have foundVk₁ : g₁.cell vk = some c := by
      rw [becomes.cells, Function.update_of_ne apart.symm, foundVk]
    exact storing₁.wp_write foundVk₁ notNode notList (by decide)
      (by rw [leBytes_length]; simp only [Vk.dataOffset]; omega) fun g₂ _ storing₂ _ _ => storing₂

theorem Storing.raiseWord (storing : Storing h g node vl n) {i : Nat} (behind : 48 ≤ i)
    (inside : i + 4 ≤ 80) (v : Nat) :
    wp (raiseWord node i v) (fun _ g' => Storing h g' node vl n) (fun _ _ => False) g := by
  obtain ⟨c, found, len, count, pointer⟩ := storing.record
  have word := rd32_cell (i := i) storing.sound found (by omega)
  refine (wp_bind _ _ _).mpr (wp_read word ?_)
  split
  · refine storing.sound.wp_write found (by omega) (by rw [leBytes_length]; omega) fun g' becomes => ?_
    refine ⟨becomes.sound, storing.keeps.trans becomes.keeps, becomes.keeps.small storing.small,
      ⟨c.put32 i v, by rw [becomes.cells, Function.update_self]; rfl, len, ?_, ?_⟩, ?_, storing.apart⟩
    · rw [Cell.get32, Cell.get_put _ (Or.inl (by simp only [Nk.nrValues]; omega))]
      exact count
    · rw [Cell.get32, Cell.get_put _ (Or.inl (by simp only [Nk.vallist]; omega))]
      exact pointer
    · rw [becomes.cells, Function.update_of_ne storing.apart.symm]
      exact storing.list
  · exact storing

theorem Storing.setOneValue (storing : Storing h g node vl n) (below : host.Below4G) {i : Nat}
    (inside : i < n) (val : SetValue) :
    wp (setOneValue host node vl i val) (fun _ g' => Storing h g' node vl n)
      (fun reason g' => ¬Halts reason ∧ Storing h g' node vl n) g := by
  refine wp_seq (storing.newVkRecord below inside val) ?_
  rintro vk g₁ ⟨storing₁, notNode, notList, c, found, long⟩
  refine wp_seq (storing₁.storeData below notNode notList found (by omega) val.value)
    fun _ g₂ storing₂ => ?_
  refine wp_seq (wp_mono (storing₂.raiseWord (by decide) (by decide) _) (fun _ _ kept => kept)
    fun _ _ never => never.elim) fun _ g₃ storing₃ => ?_
  exact wp_mono (storing₃.raiseWord (by decide) (by decide) _) (fun _ _ kept => kept)
    fun _ _ never => never.elim

theorem Storing.setEachValue (storing : Storing h g node vl n) (below : host.Below4G)
    (values : List (SetValue × Nat)) (inside : ∀ entry ∈ values, entry.2 < n) :
    wp (values.forM fun (val, i) => Hivex.setOneValue host node vl i val)
      (fun _ g' => Storing h g' node vl n) (fun reason g' => ¬Halts reason ∧ Storing h g' node vl n) g := by
  induction values generalizing g with
  | nil => exact storing
  | cons entry rest ih =>
      refine wp_seq (storing.setOneValue below (inside entry (by simp)) entry.1) fun _ g₁ storing₁ => ?_
      exact ih storing₁ fun later member => inside later (List.mem_cons_of_mem _ member)

theorem getValues_valid (h : Hive) (node : Nat) :
    Ends (getValues node h.view) (fun r => ∀ v ∈ r.1, (h.cell v).isSome) fun _ => True := by
  refine Ends.after fun _ _ => Ends.after fun count _ => ?_
  dsimp only
  split
  · exact fun v member => by cases member
  split
  · trivial
  refine Ends.after fun offset _ => ends_unlessValid (fun _ => trivial) fun _ _ => ?_
  refine Ends.after fun len _ => ?_
  split
  · trivial
  refine (Ends.mapM_all _ _ _ (fun v => (h.cell v).isSome) fun i _ => ?_).seq fun ys each => each
  refine Ends.after fun word _ => ends_unlessValid (fun _ => trivial) fun c found => ?_
  show (h.cell _).isSome
  rw [found]
  rfl

-- The node no longer lists the old values.
theorem Storing.lost (storing : Storing h g node vl n) (sound : Sound h) (some_values : n ≠ 0)
    {values : List Nat} (read : hivexNodeValues node h.view = .ok values) :
    hivexNodeValues node g.view ≠ .ok values := by
  intro same
  obtain ⟨c, nodeCell, len, count, pointer⟩ := storing.record
  obtain ⟨l, listCell, listLen, first⟩ := storing.list
  have countWord := rd32_cell (i := Nk.nrValues) storing.sound nodeCell (by
    simp only [Nk.nrValues]; omega)
  have pointerWord := rd32_cell (i := Nk.vallist) storing.sound nodeCell (by
    simp only [Nk.vallist]; omega)
  have firstWord := rd32_cell (i := ValueList.offset 0) storing.sound listCell (by
    simp only [ValueList.offset]; omega)
  have head : Ends (getValueOffset vl 0 g.view) (fun v => h.frontier ≤ v) fun _ => True := by
    refine Ends.known firstWord (ends_unlessValid (fun _ => trivial) fun d found => ?_)
    rcases first with zero | fresh
    · rw [zero] at found
      have bounds := storing.sound.cell_bounds found
      omega
    · exact fresh
  have entries : Ends (((List.range n).mapM (getValueOffset vl)) g.view)
      (fun vs => ∃ v ∈ vs, h.frontier ≤ v) fun _ => True := by
    obtain ⟨m, rfl⟩ := Nat.exists_eq_succ_of_ne_zero some_values
    rw [List.range_succ_eq_map, mapM_cons_query]
    refine head.bind fun v fresh => ?_
    cases ((List.range m).map Nat.succ).mapM (getValueOffset vl) g.view with
    | ok vs => exact ⟨v, by simp, fresh⟩
    | error stop => trivial
  have got : Ends (getValues node g.view) (fun r => ∃ v ∈ r.1, h.frontier ≤ v) fun _ => True := by
    refine Ends.after fun _ _ => Ends.known countWord ?_
    rw [count, if_neg some_values]
    split
    · trivial
    refine Ends.known pointerWord (ends_unlessValid (fun _ => trivial) fun _ _ => ?_)
    rw [pointer]
    refine Ends.after fun _ _ => ?_
    split
    · trivial
    exact entries.seq fun vs found => found
  have listed : Ends (hivexNodeValues node g.view) (fun vs => ∃ v ∈ vs, h.frontier ≤ v)
      fun _ => True := got.seq fun ⟨_, _⟩ found => found
  rw [same] at listed
  obtain ⟨v, member, fresh⟩ := listed
  obtain ⟨_, blocks, got⟩ := getValues_of_values read
  have valid := getValues_valid h node
  rw [got] at valid
  have there := valid v member
  rw [sound.cell_beyond fresh] at there
  cases there

theorem Emptied.read (emptied : Emptied h g node) : hivexNodeValues node g.view = .ok [] := by
  obtain ⟨c, found, len, id, count⟩ := emptied.record
  have countWord := rd32_cell (i := Nk.nrValues) emptied.sound found (by
    simp only [Nk.nrValues]; omega)
  rw [count] at countWord
  simp only [hivexNodeValues, getValues, bind_query, requireBlock_cell emptied.sound found, id,
    if_true, ok_bind, countWord, pure_query]

/-- `hivex_node_set_values` behind `delete_values`: an error is the refusal of the value
list, which leaves no values, or comes while the array is stored. -/
theorem Emptied.storeValues (emptied : Emptied h g node) (below : host.Below4G)
    (small : h.size < 2 ^ 32) {array : List SetValue} (some_values : array ≠ [])
    (writable : g.writable = true) :
    wp (storeValues host node array) (fun _ _ => True)
      (fun reason g' => ¬Halts reason ∧
        ((g' = g ∧ g.room.block host (listRequest array) = .error reason ∧
          (reason ≠ .dangling → ∃ code, reason = .errno code)) ∨
          ∃ vl, Storing h g' node vl array.length)) g := by
  have positive : 0 < array.length := List.length_pos_iff.mpr some_values
  obtain ⟨c, found, len, _, _⟩ := emptied.record
  refine wp_seq (wp_mono (wp_and (allocateBlock_decides writable)
    (emptied.sound.allocateBlock below (by decide))) (fun _ _ done => done) ?_) ?_
  · rintro reason g' ⟨decided, rfl, kind⟩
    have returns := refusal_returns kind
    rcases decided with ⟨refused, _⟩ | halts
    · exact ⟨returns.1, Or.inl ⟨rfl, refused, returns.2⟩⟩
    · exact absurd halts returns.1
  rintro vl g₁ ⟨_, placed, least, most, _⟩
  simp only [ValueList.sizeof, hiveMaxAllocation] at least most placed
  have apart : node ≠ vl := by
    rintro rfl
    have beyond := emptied.sound.cell_beyond placed.fresh
    rw [found] at beyond
    cases beyond
  have found₁ : g₁.cell node = some c := by
    rw [placed.becomes.cells, Function.update_of_ne apart, found]
  have list₁ : g₁.cell vl = some (freshCell ((8 + (array.length - 1) * 4 + 7) / 8 * 8) []) := by
    rw [placed.becomes.cells, Function.update_self]
  have bounds := placed.becomes.sound.cell_bounds list₁
  have keeps₁ := emptied.keeps.trans placed.becomes.keeps
  have size₁ := keeps₁.small small
  refine (wp_bind _ _ _).mpr (placed.becomes.sound.wp_write found₁ (by decide)
    (by rw [leBytes_length]; simp only [Nk.nrValues]; omega) fun g₂ second => ?_)
  have found₂ : g₂.cell node = some (c.put32 Nk.nrValues array.length) := by
    rw [second.cells, Function.update_self]
    rfl
  refine (wp_bind _ _ _).mpr (second.sound.wp_write found₂ (by decide)
    (by rw [leBytes_length]; simp only [Nk.vallist, Cell.put_len]; omega) fun g₃ third => ?_)
  have storing : Storing h g₃ node vl array.length := by
    refine ⟨third.sound, keeps₁.trans (second.keeps.trans third.keeps),
      (second.keeps.trans third.keeps).small size₁,
      ⟨(c.put32 Nk.nrValues array.length).put32 Nk.vallist (vl - 0x1000),
        by rw [third.cells, Function.update_self]; rfl, len, ?_, ?_⟩,
      ⟨freshCell ((8 + (array.length - 1) * 4 + 7) / 8 * 8) [], ?_, ?_, Or.inl ?_⟩, apart⟩
    · rw [Cell.get32, Cell.get_put _ (Or.inl (by decide)), Cell.get_put_same]
      omega
    · rw [Cell.get32, Cell.get_put_same]
      omega
    · rw [third.cells, Function.update_of_ne apart.symm, second.cells,
        Function.update_of_ne apart.symm, list₁]
    · show 4 + 4 * array.length ≤ (8 + (array.length - 1) * 4 + 7) / 8 * 8
      omega
    · exact freshCell_zero _ _ (by decide)
  refine wp_mono (storing.setEachValue below _ fun entry member => ?_) (fun _ _ _ => trivial)
    fun _ _ stopped => ⟨stopped.1, Or.inr ⟨vl, stopped.2⟩⟩
  have index := List.mem_zipIdx member
  omega

end Storing

section Losing
variable {h : Hive} {host : Host} {node : Nat} {array : List SetValue}

-- Whatever is refused later than the value list costs the old values.
theorem hivexNodeSetValues_loses (sound : Sound h) (small : h.size < 2 ^ 32) (below : host.Below4G)
    (releasable : Releasable h node) (writable : h.writable = true) {values : List Nat}
    (read : hivexNodeValues node h.view = .ok values) (loses : ¬KeepsValues host h node array) :
    wp (hivexNodeSetValues host node array) (fun _ _ => False)
      (fun stop h' => ¬Halts stop ∧ ¬(stop ≠ .dangling ∧ SameValues h h' node)) h := by
  obtain ⟨checked, blocks, got⟩ := getValues_of_values read
  obtain ⟨some_values, notGranted, notEmpty⟩ := not_or.mp loses |>.imp id not_or.mp
  refine wp_setValues writable read ?_
  refine wp_seq (wp_mono (wp_and (releasable.emptied sound writable got checked)
    (deleteValues_quiet writable got)) (fun _ _ done => done) fun _ _ never => never.1.elim) ?_
  rintro _ g ⟨emptied, room, write⟩
  have proper : array.length ≠ 0 := fun none => some_values (List.length_eq_zero_iff.mp none)
  rw [if_neg proper]
  refine wp_mono (wp_and (emptied.storeValues below small some_values write)
    (storeValues_decided write node array)) ?_ ?_
  · rintro _ g' ⟨_, granted, _⟩
    rw [room] at granted
    exact notGranted ⟨_, granted⟩
  · rintro stop g' ⟨⟨returns, refused | ⟨vl, storing⟩⟩, _⟩
    · obtain ⟨rfl, refused, code⟩ := refused
      refine ⟨returns, fun ⟨usable, same⟩ => notEmpty ⟨?_, ?_⟩⟩
      · exact same.1.symm.trans emptied.read
      · obtain ⟨errno, rfl⟩ := code usable
        exact ⟨errno, by rw [← room]; exact refused⟩
    · refine ⟨returns, fun ⟨_, same⟩ => ?_⟩
      exact storing.lost sound proper read (same.1.trans read)

theorem hivexNodeSetValues_lost (sound : Sound h) (small : h.size < 2 ^ 32) (below : host.Below4G)
    (releasable : Releasable h node) (writable : h.writable = true) {values : List Nat}
    (read : hivexNodeValues node h.view = .ok values) (loses : ¬KeepsValues host h node array) :
    ¬wp (hivexNodeSetValues host node array) (fun _ _ => True)
      (fun stop h' => ¬Halts stop → stop ≠ .dangling ∧ SameValues h h' node) h := by
  intro nothing
  have both := wp_and nothing
    (hivexNodeSetValues_loses sound small below releasable writable read loses)
  unfold wp at both
  split at both
  · exact both.2
  · exact both.2.2 (both.1 both.2.1)

end Losing

/-- Memory for every image below 4 GiB. -/
def ampleHost : Host where
  realloc n := decide (n < 2 ^ 32)
  iconv _ := .error .EILSEQ

theorem ampleHost_ample : ampleHost.Ample := fun _ => rfl

theorem minimal_values : getValues 0x1020 minimal.view = .ok ([], []) := by rfl

theorem minimal_empty : hivexNodeValues 0x1020 minimal.view = .ok [] := by
  rw [hivexNodeValues, bind_query, minimal_values]
  rfl

theorem minimal_readsValues : ReadsValues minimal 0x1020 := ⟨[], minimal_empty, by simp⟩

theorem minimal_sound : Sound minimal := ⟨_, minimal_laidOut, Or.inl rfl⟩

theorem minimal_releasable : Releasable minimal 0x1020 := by
  refine ⟨?_, fun values blocks got => ?_⟩
  · have valid : minimal.valid 0x1020 = true :=
      minimal_laidOut.valid_iff.mpr ⟨by decide, by decide⟩
    obtain ⟨c, found⟩ := cell_of_valid valid
    refine ⟨c, found, ?_⟩
    rw [(cell_some found).2.1]
    decide
  · rw [minimal_values] at got
    cases got
    simp

/-- One value of a million bytes: the list and the vk-record are stored, then the data
block is over the limit. -/
def oversized : SetValue := ⟨⟨[], nulFree_nil⟩, 3, List.replicate 1000000 0⟩

theorem oversized_not_kept : ¬KeepsValues ampleHost minimal 0x1020 [oversized] := by
  have length : oversized.value.length = 1000000 := List.length_replicate
  have long : ¬(1000000 : Nat) ≤ 4 := by decide
  have key : oversized.key.strlen = 0 := rfl
  have requests : arrayRequests [oversized] = [8, 25, 1000004] := by
    simp only [arrayRequests, List.flatMap_cons, List.flatMap_nil, SetValue.requests, dataRequests,
      length, long, if_false, listRequest, key, List.length_singleton, List.append_nil]
  have list : (⟨0x2000, 0x2000, 0⟩ : Room).block ampleHost 8 = .ok ⟨0x3000, 0x3000, 0x2028⟩ := by
    simp [Room.block, Room.page, hiveMaxAllocation, ampleHost, bitmapLen, Except.map]
  have record : (⟨0x3000, 0x3000, 0x2028⟩ : Room).block ampleHost 25 =
      .ok ⟨0x3000, 0x3000, 0x2048⟩ := by
    simp [Room.block, hiveMaxAllocation]
  have data : (⟨0x3000, 0x3000, 0x2048⟩ : Room).block ampleHost 1000004 =
      .error (.errno .ERANGE) := by
    simp [Room.block, hiveMaxAllocation]
  have refused : (⟨0x2000, 0x2000, 0⟩ : Room).blocks ampleHost (arrayRequests [oversized]) =
      .error (.errno .ERANGE) := by
    rw [requests, Room.blocks, List.foldlM_cons, list]
    show (⟨0x3000, 0x3000, 0x2028⟩ : Room).blocks ampleHost [25, 1000004] = _
    rw [Room.blocks, List.foldlM_cons, record]
    show (⟨0x3000, 0x3000, 0x2048⟩ : Room).blocks ampleHost [1000004] = _
    rw [Room.blocks, List.foldlM_cons, data]
    rfl
  rintro (none | ⟨room, granted⟩ | ⟨_, code, notFirst⟩)
  · cases none
  · have both := refused.symm.trans granted
    cases both
  · have request : listRequest [oversized] = 8 := rfl
    rw [request] at notFirst
    have both := list.symm.trans notFirst
    cases both

end Hivex
