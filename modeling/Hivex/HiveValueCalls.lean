import Hivex.HiveDeleteChild

/-! The calls that set values, under the contract of every call: what they promise where they
succeed and where they return an error. -/
namespace Hivex

open ByteMemory Commands StoreTyping GhostRuns

/-- The role of the record of a key. -/
def Role.isKey : Role → Prop
  | .nk _ => True
  | _ => False

/-- The roles of the blocks that hold the values of a key. -/
def Role.holdsValues (node : Nat) : Role → Prop
  | .vallist owner _ => owner = node
  | .vk owner => owner = node
  | .data owner _ => owner = node
  | _ => False

section Readers
variable {h : Hive} {roles : Roles} {node v b : Nat} {c : Cell} {parent : Option Nat} {values blocks : List Nat}

theorem requireBlock_ends (sound : Sound h) (eqid : List UInt8) :
    Ends (requireBlock b eqid h.view) (fun _ => ∃ c, h.cell b = some c ∧ c.id = eqid) Coded := by
  cases found : h.cell b with
  | none =>
      rw [requireBlock_none found]
      exact coded _
  | some c =>
      rw [requireBlock_cell sound found]
      split
      · exact ⟨c, rfl, ‹_›⟩
      · exact coded _

-- The values of a key differ from each other.
theorem ValuesRead.distinct (read : ValuesRead h roles node c values blocks) (typed : Typed h roles)
    (tagged : roles node = some (.nk parent)) (found : h.cell node = some c) : values.Nodup := by
  obtain ⟨l, list, isValues⟩ := read.stored
  obtain ⟨slots, isList, enough⟩ := (typed.nk tagged found).values.resolve_left (typed.there list)
  have fits : ValueListTyped roles node slots l := typed.cells _ _ _ isList list
  subst isValues
  apply List.Nodup.map_on _ List.nodup_range
  intro i inI j inJ same
  have first := List.mem_range.mp inI
  have second := List.mem_range.mp inJ
  apply fits.apart i (by omega) j (by omega)
  · have alive := (read.each _ (List.mem_map.mpr ⟨i, inI, rfl⟩)).2
    obtain ⟨d, there⟩ := Option.isSome_iff_exists.mp alive
    exact typed.there there
  · omega

/-- The blocks of a value list and its values, as they are freed. -/
structure Listed (h : Hive) (roles : Roles) (node : Nat) (values blocks : List Nat) : Prop where
  found : (h.cell node).isSome
  list : ∀ b ∈ blocks, ∃ slots, roles b = some (.vallist node slots)
  distinct : values.Nodup
  each : ∀ v ∈ values, roles v = some (.vk node) ∧ (h.cell v).isSome

theorem getValues_tagged (typed : Typed h roles) (tagged : roles node = some (.nk parent)) :
    Ends (getValues node h.view) (fun r => Listed h roles node r.1 r.2) Coded := by
  cases found : h.cell node with
  | none =>
      unfold getValues
      rw [bind_query, requireBlock_none found]
      exact coded _
  | some c =>
      have alive : (h.cell node).isSome := by
        rw [found]
        rfl
      apply (getValues_typed typed tagged found).mono
      · rintro ⟨values, blocks⟩ (⟨-, none⟩ | read)
        · cases none
          exact ⟨alive, by simp, List.nodup_nil, by simp⟩
        · obtain ⟨slots, isList⟩ := read.tagged
          have same : blocks = [c.get32 Nk.vallist + 0x1000] := read.list
          refine ⟨alive, fun b member => ?_, read.distinct typed tagged found, read.each⟩
          rw [same, List.mem_singleton] at member
          exact ⟨slots, member ▸ isList⟩
      · exact fun _ stopped => stopped

theorem hivexNodeValues_tagged (typed : Typed h roles) (tagged : roles node = some (.nk parent)) :
    Ends (hivexNodeValues node h.view)
      (fun values => ∀ v ∈ values, roles v = some (.vk node) ∧ (h.cell v).isSome) Coded := by
  apply (getValues_tagged typed tagged).seq
  exact fun _ listed => listed.each

/-- The values of a record in use are read without a look outside. -/
theorem hivexValueValue_tagged (typed : Typed h roles) (tagged : roles v = some (.vk node)) :
    Ends (hivexValueValue v h.view) (fun _ => True) Coded := by
  apply (requireBlock_ends typed.sound Vk.id).seq
  rintro _ ⟨c, found, -⟩
  have fits : VkTyped roles node v c := typed.cells _ _ _ tagged found
  have long := fits.len
  apply Ends.known (rd32_cell (i := Vk.dataType) typed.sound found (by simp only [Vk.dataType]; omega))
  apply Ends.known (rd32_cell (i := Vk.dataLen) typed.sound found (by simp only [Vk.dataLen]; omega))
  dsimp only
  split
  · exact coded _
  next small =>
  split
  · exact coded _
  split
  · next isInline =>
    have few : c.get32 Vk.dataLen % 2 ^ 31 ≤ 4 := by
      by_contra more
      exact small ⟨isInline, by omega⟩
    apply Ends.known (rdBytes_cell (i := Vk.dataOffset) (n := c.get32 Vk.dataLen % 2 ^ 31) typed.sound found (by
      simp only [Vk.dataOffset]; omega))
    trivial
  · apply Ends.known (rd32_cell (i := Vk.dataOffset) typed.sound found (by simp only [Vk.dataOffset]; omega))
    apply ends_unlessValid fun _ => coded _
    intro d there
    have bounds := typed.sound.cell_bounds there
    apply Ends.known (blockLen_cell typed.sound there)
    apply Ends.known (rdBytes_cell (i := 4) typed.sound there (by split <;> omega))
    trivial

theorem hivexValueKeyLen_tagged (typed : Typed h roles) (tagged : roles v = some (.vk node)) :
    Ends (hivexValueKeyLen v h.view) (fun len => ∀ c, h.cell v = some c → Vk.name + len ≤ c.len) Coded := by
  apply (requireBlock_ends typed.sound Vk.id).seq
  rintro _ ⟨c, found, -⟩
  have fits : VkTyped roles node v c := typed.cells _ _ _ tagged found
  have long := fits.len
  apply Ends.known (rd16_cell (i := Vk.nameLen) typed.sound found (by simp only [Vk.nameLen]; omega))
  apply Ends.known (blockLen_cell typed.sound found)
  split
  · exact coded _
  · next fits =>
    intro d here
    rw [found] at here
    cases here
    simp only [Vk.sizeof, Vk.name] at fits ⊢
    omega

theorem hivexValueKey_tagged (typed : Typed h roles) (tagged : roles v = some (.vk node)) :
    Ends (hivexValueKey v h.view) (fun _ => True) Coded := by
  apply (requireBlock_ends typed.sound Vk.id).seq
  rintro _ ⟨c, found, -⟩
  apply (hivexValueKeyLen_tagged typed tagged).seq
  intro len inside
  rw [rdBytes_cell typed.sound found (inside c found)]
  trivial

theorem readValue_tagged (typed : Typed h roles) (tagged : roles v = some (.vk node)) :
    Ends (readValue v h.view) (fun _ => True) Coded := by
  apply (hivexValueValue_tagged typed tagged).seq
  rintro ⟨t, data⟩ _
  apply (hivexValueKey_tagged typed tagged).seq
  exact fun _ _ => trivial

end Readers

section Freeing
variable {host : Host} {scope : Scope} {h : Hive} {roles : Roles} {node v b w : Nat} {c : Cell} {role : Role}
  {parent : Option Nat} {blocks values : List Nat}

/-- Freeing what a stored offset leads to. -/
theorem Kept.freeAt (kept : Kept h roles) (points : Points roles w role) (notSk : role ≠ .sk)
    (allowed : roles (w + 0x1000) = some role → scope.frees (w + 0x1000) role) :
    Abides host scope roles (markBlockUnused (w + 0x1000))
      (fun _ roles' h' => roles' = roles ∧ roles (w + 0x1000) = some role ∧
        h'.cell = Function.update h.cell (w + 0x1000) none) h := by
  rcases points with null | tagged
  · unfold Abides Promises Runs wp
    rw [markBlockUnused_gone kept.writable (kept.toTyped.null_gone null).1]
    exact Or.inl (Or.inr rfl)
  · apply (kept.free tagged notSk (allowed tagged)).mono
    rintro _ roles' h' - - ⟨same, -, cells⟩
    exact ⟨same, tagged, cells⟩

theorem Kept.freeAll (kept : Kept h roles)
    (each : ∀ b ∈ blocks, ∃ role, roles b = some role ∧ role ≠ .sk ∧ scope.frees b role) :
    Abides host scope roles (blocks.forM markBlockUnused)
      (fun _ roles' h' => roles' = roles ∧ ∀ x, x ∉ blocks → h'.cell x = h.cell x) h := by
  apply Promises.forM (fun rest roles' h' => (roles' = roles ∧ ∀ x, x ∉ blocks → h'.cell x = h.cell x) ∧
    ∀ b ∈ rest, b ∈ blocks) _ blocks kept
  · exact ⟨⟨rfl, fun _ _ => rfl⟩, fun _ member => member⟩
  · exact fun _ _ holds => holds.1
  · rintro b rest roles' h' kept' ⟨⟨rfl, others⟩, within⟩
    have inBlocks := within b (by simp)
    obtain ⟨role, tagged, notSk, allowed⟩ := each b inBlocks
    apply (kept'.free tagged notSk allowed).mono
    rintro _ roles'' h'' - - ⟨same, -, cells⟩
    refine ⟨⟨same, fun x outside => ?_⟩, fun b' member => within b' (List.mem_cons_of_mem _ member)⟩
    have other : x ≠ b := by
      rintro rfl
      exact outside inBlocks
    rw [cells, Function.update_of_ne other, others x outside]

/-- One value is freed, with the block of its data. -/
theorem Kept.deleteValue (kept : Kept h roles) (tagged : roles v = some (.vk node)) (alive : (h.cell v).isSome)
    (allowed : ∀ b role, role.holdsValues node → scope.frees b role) :
    Abides host scope roles (Hivex.deleteValue v)
      (fun _ roles' h' => roles' = roles ∧
        ∀ x, x ≠ v → roles x ≠ some (.data node v) → h'.cell x = h.cell x) h := by
  obtain ⟨c, found⟩ := Option.isSome_iff_exists.mp alive
  have fits : VkTyped roles node v c := kept.cells _ _ _ tagged found
  have long := fits.len
  unfold Hivex.deleteValue
  apply Runs.known (rd32_cell (i := Vk.dataLen) kept.sound found (by simp only [Vk.dataLen]; omega))
  dsimp only
  split
  · next notInline =>
    have points : Points roles (c.get32 Vk.dataOffset) (.data node v) := by
      apply fits.data.resolve_left
      simpa using notInline
    apply Runs.known (rd32_cell (i := Vk.dataOffset) kept.sound found (by simp only [Vk.dataOffset]; omega))
    apply (kept.freeAt points (by simp) fun _ => allowed _ _ rfl).bind
    rintro _ roles' h' kept' - ⟨rfl, isData, cells⟩
    apply (kept'.free tagged (by simp) (allowed _ _ rfl)).mono
    rintro _ roles'' h'' - - ⟨same, -, cells'⟩
    refine ⟨same, fun x other apart => ?_⟩
    have notData : x ≠ c.get32 Vk.dataOffset + 0x1000 := by
      rintro rfl
      exact apart isData
    rw [cells', Function.update_of_ne other, cells, Function.update_of_ne notData]
  · apply (kept.free tagged (by simp) (allowed _ _ rfl)).mono
    rintro _ roles' h' - - ⟨same, -, cells⟩
    refine ⟨same, fun x other _ => ?_⟩
    rw [cells, Function.update_of_ne other]

theorem Kept.deleteEach (kept : Kept h roles) (distinct : values.Nodup)
    (each : ∀ v ∈ values, roles v = some (.vk node) ∧ (h.cell v).isSome)
    (allowed : ∀ b role, role.holdsValues node → scope.frees b role) :
    Abides host scope roles (values.forM Hivex.deleteValue)
      (fun _ roles' h' => roles' = roles ∧
        ∀ x role, roles x = some role → ¬role.holdsValues node → h'.cell x = h.cell x) h := by
  apply Promises.forM (fun rest roles' h' => (roles' = roles ∧
    ∀ x role, roles x = some role → ¬role.holdsValues node → h'.cell x = h.cell x) ∧ rest.Nodup ∧
    ∀ v ∈ rest, roles v = some (.vk node) ∧ (h'.cell v).isSome) _ values kept
  · exact ⟨⟨rfl, fun _ _ _ _ => rfl⟩, distinct, each⟩
  · exact fun _ _ holds => holds.1
  · rintro v rest roles' h' kept' ⟨⟨rfl, before⟩, distinct, each⟩
    obtain ⟨tagged, alive⟩ := each v (by simp)
    obtain ⟨notLater, distinct⟩ := List.nodup_cons.mp distinct
    apply (kept'.deleteValue tagged alive allowed).mono
    rintro _ roles'' h'' - - ⟨same, others⟩
    refine ⟨⟨same, fun x role isRole apart => ?_⟩, distinct, fun x member => ?_⟩
    · have other : x ≠ v := by
        rintro rfl
        rw [tagged] at isRole
        cases isRole
        exact apart rfl
      have notData : roles' x ≠ some (.data node v) := by
        intro isData
        rw [isData] at isRole
        cases isRole
        exact apart rfl
      rw [others x other notData, before x role isRole apart]
    · obtain ⟨isVk, alive'⟩ := each x (List.mem_cons_of_mem _ member)
      have other : x ≠ v := by
        rintro rfl
        exact notLater member
      refine ⟨isVk, ?_⟩
      rw [others x other (by rw [isVk]; simp)]
      exact alive'

end Freeing

section Emptying
variable {host : Host} {scope : Scope} {h : Hive} {roles : Roles} {node b : Nat} {c c' : Cell} {parent : Option Nat}

/-- A record of a key fits with another value list. -/
theorem NkTyped.revalue (fits : NkTyped roles b parent c) (len : c'.len = c.len) (id : c'.id = c.id)
    (same : ∀ i ∈ [Nk.parent, Nk.subkeyLf, Nk.sk, Nk.classname], c'.get32 i = c.get32 i)
    (values : Null (c'.get32 Nk.vallist) ∨ ∃ slots,
      roles (c'.get32 Nk.vallist + 0x1000) = some (.vallist b slots) ∧ c'.get32 Nk.nrValues ≤ slots) :
    NkTyped roles b parent c' := by
  constructor
  · rw [len]
    exact fits.len
  · rw [id]
    exact fits.id
  · rw [same Nk.parent (by simp)]
    exact fits.top
  · rw [same Nk.parent (by simp)]
    exact fits.parent
  · rw [same Nk.subkeyLf (by simp)]
    exact fits.list
  · exact values
  · rw [same Nk.sk (by simp)]
    exact fits.sk
  · rw [same Nk.classname (by simp)]
    exact fits.classname

-- A new count of values or a new value list.
theorem NkTyped.putValues (fits : NkTyped roles b parent c) {i v : Nat} (place : i = Nk.nrValues ∨ i = Nk.vallist)
    (values : Null ((c.put32 i v).get32 Nk.vallist) ∨ ∃ slots,
      roles ((c.put32 i v).get32 Nk.vallist + 0x1000) = some (.vallist b slots) ∧
        (c.put32 i v).get32 Nk.nrValues ≤ slots) : NkTyped roles b parent (c.put32 i v) := by
  have len : (c.put32 i v).len = c.len := rfl
  apply fits.revalue len
  · exact Cell.id_put c (by rcases place with rfl | rfl <;> decide)
  · intro j member
    apply Cell.get_put c
    simp only [List.mem_cons, List.not_mem_nil, or_false] at member
    rcases place with rfl | rfl <;> rcases member with rfl | rfl | rfl | rfl <;> decide
  · exact values

/-- The words of a key about its value list. -/
def valueWords (i : Nat) : Prop := Nk.nrValues ≤ i ∧ i < Nk.vallist + 4

theorem valueWords_link {i : Nat} (changed : valueWords i) : linkFields i := by
  simp only [valueWords, linkFields, Nk.nrValues, Nk.vallist, Nk.nrSubkeys] at *
  omega

theorem Kept.clearValues (kept : Kept h roles) (tagged : roles node = some (.nk parent)) (found : h.cell node = some c)
    (writes : scope.writes node (.nk parent)) (fields : ∀ i, valueWords i → scope.fields i) :
    Abides host scope roles (do
      wr32 (node + Nk.nrValues) 0
      wr32 (node + Nk.vallist) 0xffffffff)
      (fun _ roles' h' => roles' = roles ∧
        h'.cell node = some ((c.put32 Nk.nrValues 0).put32 Nk.vallist 0xffffffff)) h := by
  have fits := kept.toTyped.nk tagged found
  have long := fits.len
  have word : (c.put32 Nk.nrValues 0).get32 Nk.vallist = c.get32 Nk.vallist := Cell.get_put c (Or.inr (by decide))
  have count : (c.put32 Nk.nrValues 0).get32 Nk.nrValues = 0 := Cell.get_put_same c 4 Nk.nrValues 0
  have values : Null ((c.put32 Nk.nrValues 0).get32 Nk.vallist) ∨ ∃ slots,
      roles ((c.put32 Nk.nrValues 0).get32 Nk.vallist + 0x1000) = some (.vallist node slots) ∧
        (c.put32 Nk.nrValues 0).get32 Nk.nrValues ≤ slots := by
    rw [word, count]
    exact fits.values.imp_right fun ⟨slots, isList, _⟩ => ⟨slots, isList, Nat.zero_le slots⟩
  apply (kept.write tagged (by simp) found writes (by decide)
    (by rw [leBytes_length]; simp only [Nk.nrValues]; omega) (fits.putValues (Or.inl rfl) values)
    fun _ _ => word_inside fun k inside => fields _ (by simp only [valueWords, Nk.nrValues, Nk.vallist]; omega)).bind
  rintro _ roles' h₁ kept₁ - ⟨rfl, wrote⟩
  have null : ((c.put32 Nk.nrValues 0).put32 Nk.vallist 0xffffffff).get32 Nk.vallist = 0xffffffff :=
    Cell.get_put_same _ 4 Nk.vallist 0xffffffff
  apply (kept₁.write tagged (by simp) wrote.here writes (by decide)
    (by rw [leBytes_length, Cell.blit_len]; simp only [Nk.vallist]; omega)
    ((fits.putValues (Or.inl rfl) values).putValues (Or.inr rfl) (Or.inl (Or.inr null)))
    fun _ _ => word_inside fun k inside => fields _ (by simp only [valueWords, Nk.nrValues, Nk.vallist]; omega)).mono
  rintro _ roles'' h₂ - - ⟨same, wrote'⟩
  exact ⟨same, wrote'.here⟩

/-- All values of a key are freed, and its record has none. -/
theorem Kept.deleteValues (kept : Kept h roles) (tagged : roles node = some (.nk parent))
    (allowed : ∀ b role, role.holdsValues node → scope.frees b role) (writes : scope.writes node (.nk parent))
    (fields : ∀ i, valueWords i → scope.fields i) :
    Abides host scope roles (Hivex.deleteValues node)
      (fun _ roles' h' => roles' = roles ∧ ∃ c, h'.cell node = some c ∧ c.get32 Nk.vallist = 0xffffffff ∧
        ∀ c₀, h.cell node = some c₀ → c = (c₀.put32 Nk.nrValues 0).put32 Nk.vallist 0xffffffff) h := by
  unfold Hivex.deleteValues
  apply Runs.get
  apply Promises.assert
  intro _
  apply kept.query (getValues_tagged kept.toTyped tagged)
  rintro ⟨values, blocks⟩ listed
  obtain ⟨c, found⟩ := Option.isSome_iff_exists.mp listed.found
  have notBlock : ∀ {x role}, roles x = some role → (∀ slots, role ≠ .vallist node slots) → x ∉ blocks := by
    intro x role isRole other member
    obtain ⟨slots, isList⟩ := listed.list x member
    rw [isList] at isRole
    cases isRole
    exact other slots rfl
  apply (kept.freeAll fun b member => ?_).bind
  · rintro _ roles' h₁ kept₁ - ⟨rfl, others₁⟩
    have each : ∀ v ∈ values, roles' v = some (.vk node) ∧ (h₁.cell v).isSome := by
      intro v member
      obtain ⟨isVk, alive⟩ := listed.each v member
      rw [others₁ v (notBlock isVk (by simp))]
      exact ⟨isVk, alive⟩
    apply (kept₁.deleteEach listed.distinct each allowed).bind
    rintro _ roles'' h₂ kept₂ - ⟨rfl, others₂⟩
    have found₂ : h₂.cell node = some c := by
      rw [others₂ node _ tagged (fun holds => holds), others₁ node (notBlock tagged (by simp)), found]
    apply (kept₂.clearValues tagged found₂ writes fields).mono
    rintro _ roles''' h₃ - - ⟨same, wrote⟩
    refine ⟨same, _, wrote, Cell.get_put_same _ 4 Nk.vallist 0xffffffff, fun c₀ found₀ => ?_⟩
    rw [found] at found₀
    cases found₀
    rfl
  · obtain ⟨slots, isList⟩ := listed.list b member
    exact ⟨_, isList, by simp, allowed _ _ rfl⟩

end Emptying

/-- A call that sets the values of `node` writes to blocks from `fresh` on and to the node. -/
def valueScope (fresh node : Nat) : Scope where
  writes := fun b role => fresh ≤ b ∨ b = node ∧ role.isKey
  frees := fun _ role => role.holdsValues node
  makes := fun b => fresh ≤ b
  bears := fun _ => False
  fields := fun i => valueWords i ∨ Nk.maxVkNameLen ≤ i ∧ i < Nk.maxVkDataLen + 4

theorem valueScope_link {fresh node i : Nat} (changes : (valueScope fresh node).fields i) : linkFields i := by
  rcases changes with inWords | ⟨lower, upper⟩
  · exact valueWords_link inWords
  · simp only [linkFields, Nk.nrSubkeys, Nk.maxVkNameLen, Nk.maxVkDataLen] at *
    omega

/-- The blocks whose offsets the library hands out. -/
def IsHandle (roles : Roles) (n : Nat) : Prop :=
  (∃ parent, roles n = some (.nk parent)) ∨ ∃ owner, roles n = some (.vk owner)

section Storing
variable {host : Host} {h : Hive} {roles roles' : Roles} {fresh node owner slots vallist vk b i w : Nat} {c l : Cell}
  {parent : Option Nat} {bytes : List UInt8} {val : SetValue} {values : List SetValue}

theorem requireBlock_handle (typed : Typed h roles) (handle : IsHandle roles node) :
    Ends (requireBlock node Nk.id h.view)
      (fun _ => (∃ parent, roles node = some (.nk parent)) ∧ (h.cell node).isSome) Coded := by
  apply (requireBlock_ends typed.sound Nk.id).mono
  · rintro _ ⟨c, found, isNk⟩
    refine ⟨?_, by rw [found]; rfl⟩
    rcases handle with tagged | ⟨owner, tagged⟩
    · exact tagged
    · have fits : VkTyped roles owner node c := typed.cells _ _ _ tagged found
      rw [fits.id] at isNk
      exact absurd isNk (by decide)
  · exact fun _ stopped => stopped

theorem requireBlock_value {v : Nat} (typed : Typed h roles) (handle : IsHandle roles v) :
    Ends (requireBlock v Vk.id h.view) (fun _ => ∃ owner, roles v = some (.vk owner)) Coded := by
  apply (requireBlock_ends typed.sound Vk.id).mono
  · rintro _ ⟨c, found, isVk⟩
    rcases handle with ⟨parent, tagged⟩ | tagged
    · rw [(typed.nk tagged found).id] at isVk
      exact absurd isVk (by decide)
    · exact tagged
  · exact fun _ stopped => stopped

theorem hivexValueValue_handle {v : Nat} (typed : Typed h roles) (handle : IsHandle roles v) :
    Ends (hivexValueValue v h.view) (fun _ => True) Coded := by
  apply (requireBlock_value typed handle).checked
  rintro ⟨owner, tagged⟩
  exact hivexValueValue_tagged typed tagged

-- A record of a value is no record of a key.
theorem refused_handle {α : Type} {post : α → Prop} {next : Unit → Reader α} (typed : Typed h roles)
    (isVk : roles node = some (.vk owner)) : Ends ((requireBlock node Nk.id >>= next) h.view) post Coded := by
  apply (requireBlock_handle typed (Or.inr ⟨owner, isVk⟩)).seq
  rintro _ ⟨⟨parent, tagged⟩, -⟩
  rw [isVk] at tagged
  cases tagged

theorem hivexNodeValues_handle (typed : Typed h roles) (handle : IsHandle roles node) :
    Ends (hivexNodeValues node h.view)
      (fun values => ∀ v ∈ values, roles v = some (.vk node) ∧ (h.cell v).isSome) Coded := by
  rcases handle with ⟨parent, tagged⟩ | ⟨owner, isVk⟩
  · exact hivexNodeValues_tagged typed tagged
  · have refused : Ends (getValues node h.view) (fun _ => False) Coded := refused_handle typed isVk
    exact refused.seq fun _ never => never.elim

/-- A new record in a value list. -/
theorem ValueListTyped.enter (fits : ValueListTyped roles owner slots l) (grows : Extends roles roles')
    (untagged : roles (w + 0x1000) = none) (tagged : roles' (w + 0x1000) = some (.vk owner)) (small : w < 2 ^ 32) :
    ValueListTyped roles' owner slots (l.put32 (ValueList.offset i) w) := by
  have own : (l.put32 (ValueList.offset i) w).get32 (ValueList.offset i) = w := by
    rw [Cell.get32, Cell.get_put_same]
    omega
  have others : ∀ j, j ≠ i → (l.put32 (ValueList.offset i) w).get32 (ValueList.offset j) =
      l.get32 (ValueList.offset j) := by
    intro j other
    exact Cell.get_put l (by simp only [ValueList.offset]; omega)
  have old : ∀ j < slots, ¬Null (l.get32 (ValueList.offset j)) → l.get32 (ValueList.offset j) ≠ w := by
    intro j inside proper same
    have isVk := (fits.offsets j inside).resolve_left proper
    rw [same, untagged] at isVk
    cases isVk
  constructor
  · exact fits.len
  · intro j inside
    by_cases here : j = i
    · rw [here, own]
      exact Or.inr tagged
    · rw [others j here]
      exact (fits.offsets j inside).mono grows
  · intro j inside k inside' proper same
    by_cases first : j = i <;> by_cases second : k = i
    · rw [first, second]
    · rw [first, own, others k second] at same
      rw [first, own, same] at proper
      exact absurd same.symm (old k inside' proper)
    · rw [others j first, second, own] at same
      rw [others j first] at proper
      exact absurd same (old j inside proper)
    · rw [others j first] at proper same
      rw [others k second] at same
      exact fits.apart j inside k inside' proper same

/-- A write to a new value record, off its data offset. -/
theorem Kept.writeVk (kept : Kept h roles) (tagged : roles vk = some (.vk node)) (found : h.cell vk = some c)
    (new : fresh ≤ vk) (blank : c.get32 Vk.dataOffset = 0) (lower : 6 ≤ i) (upper : i + bytes.length ≤ c.len)
    (apart : i + bytes.length ≤ Vk.dataOffset ∨ Vk.dataOffset + 4 ≤ i) :
    Abides host (valueScope fresh node) roles (wrBytes (vk + i) bytes)
      (fun _ roles' h' => roles' = roles ∧ ∃ c', Wrote h h' vk c' ∧ c' = c.blit i bytes ∧ c'.len = c.len ∧
        c'.get32 Vk.dataOffset = 0) h := by
  have fits : VkTyped roles node vk c := kept.cells _ _ _ tagged found
  have word : (c.blit i bytes).get32 Vk.dataOffset = 0 := by
    rw [← blank]
    exact c.get_blit (by omega)
  have typed : VkTyped roles node vk (c.blit i bytes) := by
    constructor
    · exact fits.len
    · rw [c.id_blit lower]
      exact fits.id
    · rw [word]
      exact Or.inr (Or.inl (Or.inl rfl))
  apply (kept.write tagged (by simp) found (Or.inl new) (by omega) upper typed).mono
  exact fun _ _ _ _ _ ⟨same, wrote⟩ => ⟨same, _, wrote, rfl, rfl, word⟩

/-- What `new_vk_record` leaves: a record without data in its list. -/
structure VkEntered (h : Hive) (roles : Roles) (node vallist : Nat) (val : SetValue) (vk : Nat) (roles' : Roles)
    (h' : Hive) : Prop where
  roles : roles' = Function.update roles vk (some (.vk node))
  fresh : h.frontier ≤ vk
  here : ∃ c, h'.cell vk = some c ∧ c.get32 Vk.dataOffset = 0 ∧ (val.value.length ≤ 4 → 2 ^ 31 ≤ c.get32 Vk.dataLen)
  list : (h'.cell vallist).isSome

theorem Kept.newVkRecord (kept : Kept h roles) (below : host.Below4G) (since : fresh ≤ h.frontier)
    (isList : roles vallist = some (.vallist node slots)) (found : h.cell vallist = some l) (new : fresh ≤ vallist)
    (inside : i < slots) :
    Abides host (valueScope fresh node) roles (Hivex.newVkRecord host vallist i val)
      (VkEntered h roles node vallist val) h := by
  have listFits : ValueListTyped roles node slots l := kept.cells _ _ _ isList found
  have room := listFits.len
  unfold Hivex.newVkRecord
  apply (kept.alloc (.vk node) below (by decide) (by simp) (by simp) fun b => ?_).bind
  · rintro vk roles' h₁ kept₁ - ⟨rfl, placed, first⟩
    have untagged := kept.toTyped.untagged first
    have isVk : Function.update roles vk (some (Role.vk node)) vk = some (.vk node) := Function.update_self ..
    have bounds := kept₁.bounds _ _ isVk
    have apart : vallist ≠ vk := by
      rintro rfl
      rw [untagged] at isList
      cases isList
    have here₁ := placed.here
    have cellBounds := kept₁.sound.cell_bounds here₁
    have small := kept₁.small
    have list₁ := placed.found apart found
    have isList₁ : Function.update roles vk (some (Role.vk node)) vallist = some (.vallist node slots) := by
      rw [Function.update_of_ne apart, isList]
    have back : vk - 0x1000 + 0x1000 = vk := by omega
    apply (kept₁.write isList₁ (by simp) list₁ (Or.inl new) (by simp only [ValueList.offset]; omega)
      (by rw [leBytes_length]; simp only [ValueList.offset]; omega)
      (listFits.enter (extends_update untagged _) (by rw [back]; exact untagged) (by rw [back]; exact isVk)
        (by omega))).bind
    rintro _ roles'' h₂ kept₂ - ⟨rfl, wrote₂⟩
    have here₂ := (wrote₂.others vk apart.symm).trans here₁
    have zero : (freshCell ((Vk.sizeof + val.key.strlen + 7) / 8 * 8) Vk.id).get32 Vk.dataOffset = 0 :=
      freshCell_zero _ _ (by decide)
    have long : (freshCell ((Vk.sizeof + val.key.strlen + 7) / 8 * 8) Vk.id).len =
        (Vk.sizeof + val.key.strlen + 7) / 8 * 8 := rfl
    have size : Vk.sizeof = 25 := rfl
    have keyLen : val.key.strlen = val.key.bytes.length := rfl
    have wide : ∀ n v, (leBytes n v).length = n := leBytes_length
    have newVk := since.trans first
    apply (kept₂.writeVk isVk here₂ newVk zero (by decide) (by rw [wide, long]; simp only [Vk.nameLen]; omega)
      (Or.inl (by rw [wide]; decide))).bind
    rintro _ roles₃ h₃ kept₃ - ⟨rfl, c₃, wrote₃, -, len₃, blank₃⟩
    apply (kept₃.writeVk isVk wrote₃.here newVk blank₃ (by decide)
      (by rw [len₃, long, List.length_append, List.length_singleton]; simp only [Vk.name]; omega)
      (Or.inr (by decide))).bind
    rintro _ roles₄ h₄ kept₄ - ⟨rfl, c₄, wrote₄, -, len₄, blank₄⟩
    apply (kept₄.writeVk isVk wrote₄.here newVk blank₄ (by decide)
      (by rw [wide, len₄, len₃, long]; simp only [Vk.dataType]; omega) (Or.inr (by decide))).bind
    rintro _ roles₅ h₅ kept₅ - ⟨rfl, c₅, wrote₅, -, len₅, blank₅⟩
    apply (kept₅.writeVk isVk wrote₅.here newVk blank₅ (by decide)
      (by rw [wide, len₅, len₄, len₃, long]; simp only [Vk.dataLen]; omega) (Or.inl (by rw [wide]))).bind
    rintro _ roles₆ h₆ kept₆ - ⟨rfl, c₆, wrote₆, is₆, len₆, blank₆⟩
    apply (kept₆.writeVk isVk wrote₆.here newVk blank₆ (by decide)
      (by rw [wide, len₆, len₅, len₄, len₃, long]; simp only [Vk.flags]; omega) (Or.inr (by decide))).bind
    rintro _ roles₇ h₇ kept₇ - ⟨rfl, c₇, wrote₇, is₇, -, blank₇⟩
    apply kept₇.done
    constructor
    · rfl
    · exact first
    · refine ⟨c₇, wrote₇.here, blank₇, fun short => ?_⟩
      have word : c₇.get32 Vk.dataLen = c₆.get32 Vk.dataLen := by
        rw [is₇]
        exact Cell.get_put c₆ (Or.inl (by decide))
      have stored : c₆.get32 Vk.dataLen = (val.value.length % 2 ^ 32 + 2 ^ 31) % 256 ^ 4 := by
        rw [is₆, if_pos (by omega)]
        exact Cell.get_put_same c₅ 4 Vk.dataLen _
      omega
    · have last := wrote₃.again (wrote₄.again (wrote₅.again (wrote₆.again wrote₇)))
      rw [last.others vallist apart, wrote₂.here]
      rfl
  · constructor
    · simp only [freshCell, Vk.sizeof]
      omega
    · exact freshCell_id rfl
    · exact Or.inr (Or.inl (Or.inl (freshCell_zero _ _ (by decide))))

theorem Kept.storeData {value : List UInt8} (kept : Kept h roles) (below : host.Below4G) (since : fresh ≤ h.frontier)
    (tagged : roles vk = some (.vk node)) (new : fresh ≤ vk) (found : h.cell vk = some c)
    (short : value.length ≤ 4 → 2 ^ 31 ≤ c.get32 Vk.dataLen) :
    Abides host (valueScope fresh node) roles (Hivex.storeData host vk value)
      (fun _ _ h' => ∀ x < h.frontier, x ≠ vk → h'.cell x = h.cell x) h := by
  have fits : VkTyped roles node vk c := kept.cells _ _ _ tagged found
  have long := fits.len
  have few : ∀ w, (c.put32 Vk.dataOffset w).get32 Vk.dataLen = c.get32 Vk.dataLen :=
    fun w => Cell.get_put c (Or.inl (by decide))
  unfold Hivex.storeData
  split
  · next isInline =>
    have typed : VkTyped roles node vk (c.blit Vk.dataOffset value) := by
      constructor
      · exact fits.len
      · rw [c.id_blit (by decide)]
        exact fits.id
      · left
        rw [Cell.get32, c.get_blit (Or.inl (by decide))]
        exact short isInline
    apply (kept.write tagged (by simp) found (Or.inl new) (by decide) (by simp only [Vk.dataOffset]; omega) typed).mono
    rintro _ _ h₁ - - ⟨-, wrote⟩ x - other
    exact wrote.others x other
  · next large =>
    apply (kept.alloc (.data node vk) below (by simp) (by simp) (by simp) fun _ => trivial).bind
    rintro data roles' h₁ kept₁ - ⟨rfl, placed, first⟩
    have bounds := kept.bounds _ _ tagged
    have apart : vk ≠ data := by omega
    have isData : Function.update roles data (some (Role.data node vk)) data = some (.data node vk) :=
      Function.update_self ..
    have isVk : Function.update roles data (some (Role.data node vk)) vk = some (.vk node) := by
      rw [Function.update_of_ne apart, tagged]
    have here₁ := placed.here
    have found₁ := placed.found apart found
    have room : (freshCell ((value.length + 4 + 7) / 8 * 8) []).len = (value.length + 4 + 7) / 8 * 8 := rfl
    apply (kept₁.write isData (by simp) here₁ (Or.inl (since.trans first)) (by decide) (by rw [room]; omega)
      trivial).bind
    rintro _ roles'' h₂ kept₂ - ⟨rfl, wrote₂⟩
    have found₂ : h₂.cell vk = some c := (wrote₂.others vk apart).trans found₁
    have dataBounds := kept₂.bounds _ _ isData
    have cellBounds := kept₂.sound.cell_bounds wrote₂.here
    have small := kept₂.small
    have typed : VkTyped (Function.update roles data (some (Role.data node vk))) node vk
        (c.put32 Vk.dataOffset (data - 0x1000)) := by
      constructor
      · exact fits.len
      · rw [Cell.id_put c (by decide)]
        exact fits.id
      · have word : (c.put32 Vk.dataOffset (data - 0x1000)).get32 Vk.dataOffset + 0x1000 = data := by
          rw [Cell.get32, Cell.get_put_same]
          omega
        right
        right
        rw [word]
        exact isData
    apply (kept₂.write isVk (by simp) found₂ (Or.inl new) (by decide)
      (by rw [leBytes_length]; simp only [Vk.dataOffset]; omega) typed).mono
    rintro _ _ h₃ - - ⟨-, wrote₃⟩ x old other
    rw [wrote₃.others x other, wrote₂.others x (by omega), placed.others x (by omega)]

/-- The maxima behind the six words. -/
theorem Kept.raiseWord {v : Nat} (kept : Kept h roles) (tagged : roles node = some (.nk parent))
    (alive : (h.cell node).isSome) (place : i = Nk.maxVkNameLen ∨ i = Nk.maxVkDataLen) :
    Abides host (valueScope fresh node) roles (Hivex.raiseWord node i v)
      (fun _ roles' h' => roles' = roles ∧ ∀ x, x ≠ node → h'.cell x = h.cell x) h := by
  obtain ⟨c, found⟩ := Option.isSome_iff_exists.mp alive
  have fits := kept.toTyped.nk tagged found
  have long := fits.len
  have inside : i + 4 ≤ c.len := by
    rcases place with rfl | rfl
    · simp only [Nk.maxVkNameLen]
      omega
    · simp only [Nk.maxVkDataLen]
      omega
  have typed : NkTyped roles node parent (c.put32 i v) := by
    have len : (c.put32 i v).len = c.len := rfl
    apply fits.alike len
    · exact Cell.id_put c (by rcases place with rfl | rfl <;> decide)
    · intro j member
      apply Cell.get_put c
      simp only [List.mem_cons, List.not_mem_nil, or_false] at member
      rcases place with rfl | rfl <;> rcases member with rfl | rfl | rfl | rfl | rfl | rfl <;> decide
  unfold Hivex.raiseWord
  apply Runs.known (rd32_cell (i := i) kept.sound found inside)
  split
  · apply (kept.write tagged (by simp) found (Or.inr ⟨rfl, trivial⟩) (by rcases place with rfl | rfl <;> decide)
      (by rw [leBytes_length]; exact inside) typed fun _ _ => word_inside fun k inside => Or.inr (by
        simp only [Nk.maxVkNameLen, Nk.maxVkDataLen] at *
        omega)).mono
    rintro _ _ h₁ - - ⟨same, wrote⟩
    exact ⟨same, wrote.others⟩
  · exact kept.done _ ⟨rfl, fun _ _ => rfl⟩

theorem Kept.setOneValue (kept : Kept h roles) (below : host.Below4G) (since : fresh ≤ h.frontier)
    (tagged : roles node = some (.nk parent)) (alive : (h.cell node).isSome)
    (isList : roles vallist = some (.vallist node slots)) (there : (h.cell vallist).isSome) (new : fresh ≤ vallist)
    (inside : i < slots) :
    Abides host (valueScope fresh node) roles (Hivex.setOneValue host node vallist i val)
      (fun _ _ h' => (h'.cell vallist).isSome) h := by
  obtain ⟨l, found⟩ := Option.isSome_iff_exists.mp there
  apply (kept.newVkRecord below since isList found new inside).bind
  rintro vk roles₁ h₁ kept₁ moves₁ entered
  obtain ⟨c, here, -, short⟩ := entered.here
  have isVk : roles₁ vk = some (.vk node) := by
    rw [entered.roles, Function.update_self]
  have frontier := moves₁.keeps.frontier
  have first := entered.fresh
  have list := kept.bounds _ _ isList
  apply (kept₁.storeData below (since.trans frontier) isVk (since.trans first) here short).bind
  rintro _ roles₂ h₂ kept₂ moves₂ others₂
  have notValues : ¬(valueScope fresh node).frees node (.nk parent) := fun holds => holds
  have tagged₁ := moves₁.grows _ _ tagged
  have alive₁ := (moves₁.alive kept.toTyped tagged notValues).trans alive
  have tagged₂ := moves₂.grows _ _ tagged₁
  have alive₂ := (moves₂.alive kept₁.toTyped tagged₁ notValues).trans alive₁
  have notNode : vallist ≠ node := by
    rintro rfl
    rw [tagged] at isList
    cases isList
  apply (kept₂.raiseWord tagged₂ alive₂ (Or.inl rfl)).bind
  rintro _ roles₃ h₃ kept₃ moves₃ ⟨rfl, others₃⟩
  have alive₃ := (moves₃.alive kept₂.toTyped tagged₂ notValues).trans alive₂
  apply (kept₃.raiseWord tagged₂ alive₃ (Or.inr rfl)).mono
  rintro _ roles₄ h₄ - - ⟨-, others₄⟩
  rw [others₄ vallist notNode, others₃ vallist notNode, others₂ vallist (by omega) (by omega)]
  exact entered.list

theorem Kept.storeValues (kept : Kept h roles) (below : host.Below4G) (since : fresh ≤ h.frontier)
    (tagged : roles node = some (.nk parent)) (found : h.cell node = some c)
    (null : c.get32 Nk.vallist = 0xffffffff) :
    Abides host (valueScope fresh node) roles (Hivex.storeValues host node values) (fun _ _ _ => True) h := by
  unfold Hivex.storeValues
  apply (kept.alloc (.vallist node values.length) below (by simp) (by simp) (by simp) fun b => ?_).bind
  · rintro vallist roles' h₁ kept₁ moves₁ ⟨rfl, placed, first⟩
    have bounds := kept.bounds _ _ tagged
    have apart : node ≠ vallist := by omega
    have isList : Function.update roles vallist (some (Role.vallist node values.length)) vallist =
        some (.vallist node values.length) := Function.update_self ..
    have tagged₁ := moves₁.grows _ _ tagged
    have found₁ := placed.found apart found
    have fits := kept₁.toTyped.nk tagged₁ found₁
    have long := fits.len
    have word : (c.put32 Nk.nrValues values.length).get32 Nk.vallist = 0xffffffff := by
      rw [Cell.get32, Cell.get_put _ (Or.inr (by decide))]
      exact null
    have counted := fits.putValues (v := values.length) (Or.inl rfl) (Or.inl (Or.inr word))
    apply (kept₁.write tagged₁ (by simp) found₁ (Or.inr ⟨rfl, trivial⟩) (by decide)
      (by rw [leBytes_length]; simp only [Nk.nrValues]; omega) counted
      fun _ _ => word_inside fun k inside => Or.inl (by simp only [valueWords, Nk.nrValues, Nk.vallist]; omega)).bind
    rintro _ roles₂ h₂ kept₂ - ⟨rfl, wrote₂⟩
    have listBounds := kept₁.bounds _ _ isList
    have cellBounds := kept₁.sound.cell_bounds placed.here
    have small := kept₁.small
    have linked : NkTyped (Function.update roles vallist (some (Role.vallist node values.length))) node parent
        ((c.put32 Nk.nrValues values.length).put32 Nk.vallist (vallist - 0x1000)) := by
      apply counted.putValues (Or.inr rfl)
      right
      refine ⟨values.length, ?_, ?_⟩
      · have back : ((c.put32 Nk.nrValues values.length).put32 Nk.vallist (vallist - 0x1000)).get32 Nk.vallist +
            0x1000 = vallist := by
          rw [Cell.get32, Cell.get_put_same]
          omega
        rw [back]
        exact isList
      · rw [Cell.get32, Cell.get_put _ (Or.inl (by decide)), Cell.get_put_same]
        omega
    apply (kept₂.write tagged₁ (by simp) wrote₂.here (Or.inr ⟨rfl, trivial⟩) (by decide)
      (by rw [leBytes_length, Cell.blit_len]; simp only [Nk.vallist]; omega) linked
      fun _ _ => word_inside fun k inside => Or.inl (by simp only [valueWords, Nk.nrValues, Nk.vallist]; omega)).bind
    rintro _ roles₃ h₃ kept₃ moves₃ ⟨rfl, wrote₃⟩
    have frontier₁ := placed.keeps.frontier
    have frontier₂ := wrote₂.keeps.frontier
    have frontier₃ := wrote₃.keeps.frontier
    apply Promises.forM (fun rest roles' h' => Extends roles roles' ∧ fresh ≤ h'.frontier ∧ (h'.cell node).isSome ∧
      roles' vallist = some (.vallist node values.length) ∧ (h'.cell vallist).isSome ∧
      ∀ x ∈ rest, x.2 < values.length) _ _ kept₃
    · refine ⟨moves₁.grows, by omega, by rw [wrote₃.here]; rfl, isList, ?_, fun x member => ?_⟩
      · rw [wrote₃.others vallist apart.symm, wrote₂.others vallist apart.symm, placed.here]
        rfl
      · have position := List.mem_zipIdx member
        omega
    · exact fun _ _ _ => trivial
    · rintro ⟨val, i⟩ rest roles' h' kept' ⟨grows, since', alive, isList', there', inside⟩
      have tagged' := grows _ _ tagged
      apply (kept'.setOneValue below since' tagged' alive isList' there' (by omega) (inside (val, i) (by simp))).mono
      rintro _ roles'' h'' - moves'' list''
      have notValues : ¬(valueScope fresh node).frees node (.nk parent) := fun holds => holds
      refine ⟨grows.trans moves''.grows, since'.trans moves''.keeps.frontier,
        (moves''.alive kept'.toTyped tagged' notValues).trans alive, moves''.grows _ _ isList', list'',
        fun x member => inside x (List.mem_cons_of_mem _ member)⟩
  · constructor
    · simp only [freshCell, ValueList.sizeof]
      omega
    · exact fun i _ => Or.inl (Or.inl (freshCell_zero _ _ (by simp)))
    · intro i _ j _ notNull
      exact absurd (Or.inl (freshCell_zero _ _ (by simp))) notNull

/-- `hivex_node_set_values`. -/
theorem Kept.hivexNodeSetValues (kept : Kept h roles) (below : host.Below4G) (handle : IsHandle roles node) :
    Abides host (valueScope h.frontier node) roles (Hivex.hivexNodeSetValues host node values)
      (fun _ _ _ => True) h := by
  unfold Hivex.hivexNodeSetValues
  apply Runs.get
  rw [kept.writable]
  apply kept.query (requireBlock_handle kept.toTyped handle)
  rintro _ ⟨⟨parent, tagged⟩, -⟩
  apply (kept.deleteValues tagged (fun _ _ holds => holds) (Or.inr ⟨rfl, trivial⟩) fun _ => Or.inl).bind
  rintro _ roles' h' kept' moves ⟨rfl, c, found, null, -⟩
  split
  · exact kept'.done _ trivial
  · exact kept'.storeValues below moves.keeps.frontier tagged found null

/-- `hivex_node_set_value`. -/
theorem Kept.hivexNodeSetValue (kept : Kept h roles) (below : host.Below4G) (handle : IsHandle roles node) :
    Abides host (valueScope h.frontier node) roles (Hivex.hivexNodeSetValue host node val) (fun _ _ _ => True) h := by
  unfold Hivex.hivexNodeSetValue
  apply kept.query (hivexNodeValues_handle kept.toTyped handle)
  intro values each
  apply kept.query (Ends.mapM_all readValue h.view values (fun _ => True) fun v member =>
    readValue_tagged kept.toTyped (each v member).1)
  exact fun prev _ => kept.hivexNodeSetValues below handle

end Storing

end Hivex
