import Hivex.HiveAllocate
import Hivex.StoreTyping
import Hivex.GhostRuns
import Hivex.LinkedRing

/-! The roles of blocks. A role names the record in a block and the key that owns
it, so each stored offset leads to a block of the same key, to a child or parent of
it or to a security record. A freed block keeps its role, so this survives calls that
fail half-way and leave offsets of freed blocks behind. A place with the role `void` is
no used block: the parent offset of a root key often leads to one. -/
namespace Hivex

open ByteMemory Commands StoreTyping GhostRuns LinkedRing

inductive Role where
  | nk (parent : Option Nat)
  | lf (owner : Nat)
  | ri (owner : Nat)
  | vallist (owner slots : Nat)
  | vk (owner : Nat)
  | data (owner vk : Nat)
  | classname (owner : Nat)
  | sk
  | void
deriving DecidableEq

abbrev Roles := Nat → Option Role

/-- The words that lead nowhere: a zeroed field and the mark for an absent offset. -/
def Null (w : Nat) : Prop := w = 0 ∨ w = 0xffffffff

instance (w : Nat) : Decidable (Null w) := inferInstanceAs (Decidable (_ ∨ _))

def Points (roles : Roles) (w : Nat) (role : Role) : Prop :=
  Null w ∨ roles (w + 0x1000) = some role

structure NkTyped (roles : Roles) (b : Nat) (parent : Option Nat) (c : Cell) : Prop where
  len : 80 ≤ c.len
  id : c.id = Nk.id
  top : parent = none → Null (c.get32 Nk.parent) ∨ roles (c.get32 Nk.parent + 0x1000) = some .void
  parent : ∀ q, parent = some q → c.get32 Nk.parent = 0 ∨ c.get32 Nk.parent + 0x1000 = q
  list : Points roles (c.get32 Nk.subkeyLf) (.lf b) ∨ Points roles (c.get32 Nk.subkeyLf) (.ri b)
  values : Null (c.get32 Nk.vallist) ∨ ∃ slots,
    roles (c.get32 Nk.vallist + 0x1000) = some (.vallist b slots) ∧ c.get32 Nk.nrValues ≤ slots
  sk : Points roles (c.get32 Nk.sk) .sk
  classname : Points roles (c.get32 Nk.classname) (.classname b)

structure LfTyped (roles : Roles) (owner : Nat) (c : Cell) : Prop where
  id : c.id = Lf.idLf ∨ c.id = Lf.idLh
  len : 8 + 8 * c.get16 Lf.nrKeys ≤ c.len
  keys : ∀ i < c.get16 Lf.nrKeys, Points roles (c.get32 (Lf.keyOffset i)) (.nk (some owner))

structure RiTyped (roles : Roles) (owner : Nat) (c : Cell) : Prop where
  id : c.id = Ri.id
  len : 8 + 4 * c.get16 Ri.nrOffsets ≤ c.len
  offsets : ∀ i < c.get16 Ri.nrOffsets, Points roles (c.get32 (Ri.offset i)) (.lf owner)
  apart : ∀ i < c.get16 Ri.nrOffsets, ∀ j < c.get16 Ri.nrOffsets, ¬Null (c.get32 (Ri.offset i)) →
    c.get32 (Ri.offset i) = c.get32 (Ri.offset j) → i = j

structure ValueListTyped (roles : Roles) (owner slots : Nat) (c : Cell) : Prop where
  len : 4 + 4 * slots ≤ c.len
  offsets : ∀ i < slots, Points roles (c.get32 (ValueList.offset i)) (.vk owner)
  apart : ∀ i < slots, ∀ j < slots, ¬Null (c.get32 (ValueList.offset i)) →
    c.get32 (ValueList.offset i) = c.get32 (ValueList.offset j) → i = j

structure VkTyped (roles : Roles) (owner b : Nat) (c : Cell) : Prop where
  len : 24 ≤ c.len
  id : c.id = Vk.id
  data : 2 ^ 31 ≤ c.get32 Vk.dataLen ∨ Points roles (c.get32 Vk.dataOffset) (.data owner b)

structure SkTyped (c : Cell) : Prop where
  len : 20 ≤ c.len
  id : c.id = Sk.id

def RoleFits (roles : Roles) (b : Nat) : Role → Cell → Prop
  | .nk parent, c => NkTyped roles b parent c
  | .lf owner, c => LfTyped roles owner c
  | .ri owner, c => RiTyped roles owner c
  | .vallist owner slots, c => ValueListTyped roles owner slots c
  | .vk owner, c => VkTyped roles owner b c
  | .data _ _, _ => True
  | .classname _, _ => True
  | .sk, c => SkTyped c
  | .void, _ => False

section Growing
variable {roles roles' : Roles} {w : Nat} {role : Role}

theorem Points.mono (grows : Extends roles roles') (points : Points roles w role) :
    Points roles' w role :=
  points.imp_right (grows _ _)

theorem roleFits_mono : Monotone RoleFits := by
  intro roles roles' b role c grows fits
  cases role with
  | nk parent =>
      obtain ⟨len, id, top, parent, list, values, sk, classname⟩ := fits
      exact ⟨len, id, fun isTop => (top isTop).imp_right (grows _ _), parent,
        list.imp (·.mono grows) (·.mono grows),
        values.imp_right fun ⟨slots, found, enough⟩ => ⟨slots, grows _ _ found, enough⟩,
        sk.mono grows, classname.mono grows⟩
  | lf owner => exact ⟨fits.id, fits.len, fun i inside => (fits.keys i inside).mono grows⟩
  | ri owner =>
      exact ⟨fits.id, fits.len, fun i inside => (fits.offsets i inside).mono grows, fits.apart⟩
  | vallist owner slots =>
      exact ⟨fits.len, fun i inside => (fits.offsets i inside).mono grows, fits.apart⟩
  | vk owner => exact ⟨fits.len, fits.id, fits.data.imp_right (·.mono grows)⟩
  | data owner vk => trivial
  | classname owner => trivial
  | sk => exact fits
  | void => exact fits

end Growing

/-- A handle whose blocks have the given roles. -/
structure Typed (h : Hive) (roles : Roles) : Prop where
  sound : Sound h
  small : h.size < 2 ^ 32
  writable : h.writable = true
  bounds : ∀ b role, roles b = some role → 0x1020 ≤ b ∧ b < h.frontier
  parents : ∀ b q, roles b = some (.nk (some q)) → ∃ g, roles q = some (.nk g)
  acyclic : ∃ rank : Nat → Nat, ∀ b q, roles b = some (.nk (some q)) → rank q < rank b
  cells : StoreTyping.Typed RoleFits roles h.cell

section Steps
variable {h : Hive} {roles : Roles} {b i n : Nat} {c : Cell} {role : Role} {bytes : List UInt8}
  {host : Host} {id : List UInt8}

theorem Typed.becomes {h' : Hive} {cells : Cells} (typed : Typed h roles) (becomes : Becomes h h' cells)
    (fits : StoreTyping.Typed RoleFits roles cells) : Typed h' roles where
  sound := becomes.sound
  small := becomes.keeps.small typed.small
  writable := becomes.keeps.writable.trans typed.writable
  bounds := fun b role tagged => by
    have bounds := typed.bounds b role tagged
    have frontier := becomes.keeps.frontier
    omega
  parents := typed.parents
  acyclic := typed.acyclic
  cells := by
    rw [becomes.cells]
    exact fits

-- A null word leads to no block.
theorem Typed.null_gone (typed : Typed h roles) {w : Nat} (null : Null w) :
    h.cell (w + 0x1000) = none ∧ roles (w + 0x1000) = none := by
  have small := typed.small
  have gone : ∀ role, roles (w + 0x1000) ≠ some role := fun role tagged => by
    have bounds := typed.bounds _ _ tagged
    have frontier : h.frontier ≤ h.size + 0x20 := by
      obtain ⟨pages, laid, point⟩ := typed.sound
      have inside := laid.inside
      unfold Hive.frontier
      split
      · omega
      · obtain ⟨init, p, opened⟩ := laid.opened point ‹_›
        have room := opened.room
        omega
    rcases null with rfl | rfl <;> omega
  constructor
  · cases found : h.cell (w + 0x1000) with
    | none => rfl
    | some c =>
        have bounds := typed.sound.cell_bounds found
        rcases null with rfl | rfl <;> omega
  · cases tagged : roles (w + 0x1000) with
    | none => rfl
    | some role => exact absurd tagged (gone role)

-- A stored offset that leads to a used block leads to one of the right role.
theorem Typed.follow (typed : Typed h roles) {w : Nat} (points : Points roles w role)
    (found : h.cell (w + 0x1000) = some c) :
    roles (w + 0x1000) = some role ∧ RoleFits roles (w + 0x1000) role c := by
  rcases points with null | tagged
  · rw [(typed.null_gone null).1] at found
    cases found
  · exact ⟨tagged, typed.cells _ _ _ tagged found⟩

theorem Typed.wp_rd {post : Nat → Hive → Prop} {stop : Stop → Hive → Prop} (typed : Typed h roles)
    (found : h.cell b = some c) (inside : i + n ≤ c.len) (holds : post (c.get n i) h) :
    wp (read (rdLe n b i)) post stop h :=
  wp_read (rdLe_cell typed.sound found inside) holds

theorem Typed.wp_write {post : Unit → Hive → Prop} {stop : Stop → Hive → Prop}
    (typed : Typed h roles) (tagged : roles b = some role) (found : h.cell b = some c)
    (lower : 4 ≤ i) (upper : i + bytes.length ≤ c.len)
    (fits : RoleFits roles b role (c.blit i bytes))
    (continues : ∀ h', Typed h' roles →
      Becomes h h' (Function.update h.cell b (some (c.blit i bytes))) → post () h') :
    wp (wrBytes (b + i) bytes) post stop h := by
  obtain ⟨h', run, becomes⟩ := typed.sound.write found lower upper
  exact wp_of_ok run (continues h' (typed.becomes becomes (typed.cells.write tagged fits)) becomes)

theorem Typed.wp_free {post : Unit → Hive → Prop} {stop : Stop → Hive → Prop}
    (typed : Typed h roles) (abort : stop .abort h)
    (continues : ∀ c h', h.cell b = some c → Typed h' roles →
      Becomes h h' (Function.update h.cell b none) → post () h') :
    wp (markBlockUnused b) post stop h := by
  cases found : h.cell b with
  | none =>
      unfold wp
      rw [markBlockUnused_gone typed.writable found]
      exact abort
  | some c =>
      obtain ⟨h', run, becomes⟩ := typed.sound.free typed.writable found
      exact wp_of_ok run (continues c h' found (typed.becomes becomes (typed.cells.free b)) becomes)

theorem Typed.untagged (typed : Typed h roles) (beyond : h.frontier ≤ b) : roles b = none := by
  cases tagged : roles b with
  | none => rfl
  | some role =>
      have bounds := typed.bounds b role tagged
      omega

/-- The rank of a new block: a node comes after its parent. -/
def rankBelow (rank : Nat → Nat) : Role → Nat
  | .nk (some q) => rank q + 1
  | _ => 0

/-- A new block with a role. -/
theorem Typed.placed {h' : Hive} (typed : Typed h roles)
    (becomes : Becomes h h' (Function.update h.cell b (some c))) (fresh : h.frontier ≤ b)
    (parent : ∀ q, role = .nk (some q) → ∃ g, roles q = some (.nk g))
    (fits : RoleFits (Function.update roles b (some role)) b role c) :
    Typed h' (Function.update roles b (some role)) := by
  have untagged := typed.untagged fresh
  have grows := extends_update untagged role
  have keeps := becomes.keeps
  have other : ∀ x r, roles x = some r → x ≠ b := by
    rintro x r tagged rfl
    rw [untagged] at tagged
    cases tagged
  have found : h'.cell b = some c := by
    rw [becomes.cells, Function.update_self]
  have low := (becomes.sound.cell_bounds found).1
  have next := becomes.sound.cell_before found
  have parents : ∀ x q, Function.update roles b (some role) x = some (.nk (some q)) →
      ∃ g, roles q = some (.nk g) := by
    intro x q tagged
    by_cases here : x = b
    · subst here
      rw [Function.update_self] at tagged
      cases tagged
      exact parent q rfl
    · rw [Function.update_of_ne here] at tagged
      exact typed.parents x q tagged
  refine ⟨becomes.sound, keeps.small typed.small, keeps.writable.trans typed.writable,
    fun x r tagged => ?_, fun x q tagged => ?_, ?_, ?_⟩
  · by_cases here : x = b
    · subst here
      have bounds := becomes.sound.cell_bounds found
      exact ⟨low, by omega⟩
    · rw [Function.update_of_ne here] at tagged
      have old := typed.bounds x r tagged
      have frontier := keeps.frontier
      omega
  · obtain ⟨g, found⟩ := parents x q tagged
    exact ⟨g, grows _ _ found⟩
  · obtain ⟨rank, below⟩ := typed.acyclic
    refine ⟨Function.update rank b (rankBelow rank role),
      fun x q tagged => ?_⟩
    obtain ⟨g, found⟩ := parents x q tagged
    rw [Function.update_of_ne (other q _ found)]
    by_cases here : x = b
    · subst here
      rw [Function.update_self] at tagged ⊢
      cases tagged
      exact Nat.lt_succ_self _
    · rw [Function.update_of_ne here] at tagged ⊢
      exact below x q tagged
  · rw [becomes.cells]
    exact typed.cells.alloc roleFits_mono untagged fits

theorem Typed.allocated {h' : Hive} {len : Nat} (typed : Typed h roles)
    (placed : Allocated h h' b len id)
    (parent : ∀ q, role = .nk (some q) → ∃ g, roles q = some (.nk g))
    (fits : RoleFits (Function.update roles b (some role)) b role (freshCell len id)) :
    Typed h' (Function.update roles b (some role)) :=
  typed.placed placed.becomes placed.fresh parent fits

theorem Typed.wp_alloc {segLen : Nat} {post : Nat → Hive → Prop} {stop : Stop → Hive → Prop}
    (typed : Typed h roles) (ample : host.Ample) (idFits : id.length ≤ 2)
    (parent : ∀ q, role = .nk (some q) → ∃ g, roles q = some (.nk g))
    (fits : ∀ b, RoleFits (Function.update roles b (some role)) b role
      (freshCell ((segLen + 7) / 8 * 8) id))
    (fails : ∀ code, code = .ENOMEM ∨ code = .ERANGE ∧ (segLen < 4 ∨ hiveMaxAllocation < segLen) →
      stop (.errno code) h)
    (continues : ∀ b h', Allocated h h' b ((segLen + 7) / 8 * 8) id → 4 ≤ segLen →
      segLen ≤ hiveMaxAllocation → Typed h' (Function.update roles b (some role)) → post b h') :
    wp (allocateBlock host segLen id) post stop h := by
  refine wp_mono (typed.sound.allocateBlock ample.below4G idFits) ?_ ?_
  · rintro b h' ⟨placed, lower, upper, _⟩
    exact continues b h' placed lower upper (typed.allocated placed parent (fits b))
  · rintro reason h' ⟨rfl, ⟨rfl, unsteady⟩ | rfl | ⟨rfl, readOnly⟩ | ⟨rfl, size⟩⟩
    · obtain ⟨n, granted, refused⟩ := unsteady
      rw [ample.steady granted] at refused
      cases refused
    · exact fails _ (Or.inl rfl)
    · rw [typed.writable] at readOnly
      cases readOnly
    · exact fails _ (Or.inr ⟨rfl, size⟩)

end Steps

end Hivex
