import Hivex.HiveKeys
import Hivex.HiveValues
import Hivex.HiveHeader

/-! What every call keeps of a handle with roles, whether it succeeds or fails: the
roles, the ring of security records and every block outside the ones it may touch. A
freed block never comes back. -/
namespace Hivex

open ByteMemory Commands StoreTyping GhostRuns LinkedRing

def skBlocks (roles : Roles) (cells : Cells) : Set Nat := {s | roles s = some .sk ∧ (cells s).isSome}

namespace Cells

def skNext (cells : Cells) (s : Nat) : Nat :=
  ((cells s).map fun c => c.get32 Sk.skNext + 0x1000).getD 0

def skPrev (cells : Cells) (s : Nat) : Nat :=
  ((cells s).map fun c => c.get32 Sk.skPrev + 0x1000).getD 0

end Cells

/-- A handle whose blocks have the given roles and whose security records are linked. -/
structure Kept (h : Hive) (roles : Roles) : Prop extends Typed h roles where
  ring : Linked (skBlocks roles h.cell) h.cell.skNext h.cell.skPrev

section Ring
variable {roles roles' : Roles} {cells cells' : Cells}

theorem skBlocks_congr (sameRoles : ∀ s, roles' s = some .sk ↔ roles s = some .sk)
    (same : ∀ s, roles s = some .sk → cells' s = cells s) :
    skBlocks roles' cells' = skBlocks roles cells := by
  ext s
  simp only [skBlocks, Set.mem_ofPred_eq, sameRoles s]
  constructor
  · rintro ⟨isSk, alive⟩
    rw [same s isSk] at alive
    exact ⟨isSk, alive⟩
  · rintro ⟨isSk, alive⟩
    rw [← same s isSk] at alive
    exact ⟨isSk, alive⟩

-- The ring depends on the security records alone.
theorem ring_congr (ring : Linked (skBlocks roles cells) cells.skNext cells.skPrev)
    (sameRoles : ∀ s, roles' s = some .sk ↔ roles s = some .sk)
    (same : ∀ s, roles s = some .sk → cells' s = cells s) :
    Linked (skBlocks roles' cells') cells'.skNext cells'.skPrev := by
  rw [skBlocks_congr sameRoles same]
  apply ring.congr
  · rintro s ⟨isSk, -⟩
    simp only [Cells.skNext, same s isSk]
  · rintro s ⟨isSk, -⟩
    simp only [Cells.skPrev, same s isSk]

end Ring

/-- The blocks that a call may write to, those that it may free, those that it makes, the keys
that it may give a child and the bytes that it may change in the records of old keys. -/
structure Scope where
  writes : Nat → Role → Prop
  frees : Nat → Role → Prop
  makes : Nat → Prop
  bears : Nat → Prop
  fields : Nat → Prop

/-- The record of a key before and after changes in some of its bytes. -/
structure SameKey (fields : Nat → Prop) (c c' : Cell) : Prop where
  len : c'.len = c.len
  bytes : ∀ i, ¬fields i → c'.byte i = c.byte i

/-- The bytes of a key that hold its lists, values and links. -/
def linkFields (i : Nat) : Prop := Nk.nrSubkeys ≤ i ∧ i < 72

theorem linkFields_word {i n k : Nat} (lower : Nk.nrSubkeys ≤ i) (upper : i + n ≤ 72) (inside : k < n) :
    linkFields (i + k) := ⟨by omega, by omega⟩

theorem linkFields_outside {i n : Nat} (outside : i + n ≤ Nk.nrSubkeys ∨ 72 ≤ i) : ∀ k < n, ¬linkFields (i + k) := by
  intro k inside
  unfold linkFields
  omega

/-- How a call may change roles and image: new roles for new blocks only, and changes only
to blocks in its scope. A key keeps its name, its parent and its time. -/
structure Moves (scope : Scope) (roles : Roles) (h : Hive) (roles' : Roles) (h' : Hive) : Prop where
  keeps : Keeps h h'
  tags : ∀ b < h.frontier, roles' b = roles b
  frame : ∀ b < h.frontier, (∀ role, roles b = some role → ¬scope.writes b role ∧ ¬scope.frees b role) →
    h'.cell b = h.cell b
  stays : ∀ b < h.frontier, (∀ role, roles b = some role → ¬scope.frees b role) →
    (h'.cell b).isSome = (h.cell b).isSome
  gone : ∀ b < h.frontier, h.cell b = none → h'.cell b = none
  steady : ∀ b < h.frontier, ¬scope.makes b → ∀ up, roles b = some (.nk up) → ∀ c c', h.cell b = some c →
    h'.cell b = some c' → SameKey scope.fields c c'
  grows : Extends roles roles'
  born : ∀ b role, roles b = none → roles' b = some role →
    role ≠ .sk ∧ ∀ up, role = .nk up → ∃ p, up = some p ∧ scope.bears p
  header : SameHeader h h'

section Keys
variable {fields fields' : Nat → Prop} {c c' c'' : Cell} {i : Nat} {bytes : List UInt8}

theorem SameKey.refl (fields : Nat → Prop) (c : Cell) : SameKey fields c c := ⟨rfl, fun _ _ => rfl⟩

theorem SameKey.trans (first : SameKey fields c c') (second : SameKey fields c' c'') : SameKey fields c c'' :=
  ⟨second.len.trans first.len, fun i fixed => (second.bytes i fixed).trans (first.bytes i fixed)⟩

theorem SameKey.mono (same : SameKey fields c c') (wider : ∀ i, fields i → fields' i) : SameKey fields' c c' :=
  ⟨same.len, fun i fixed => same.bytes i fun changed => fixed (wider i changed)⟩

theorem SameKey.get (same : SameKey fields c c') {n : Nat} (fixed : ∀ k < n, ¬fields (i + k)) :
    c'.get n i = c.get n i := by
  apply getLe_congr
  intro k inside
  exact same.bytes (i + k) (fixed k inside)

theorem SameKey.slice (same : SameKey fields c c') {n : Nat} (fixed : ∀ k < n, ¬fields (i + k)) :
    c'.bytes i n = c.bytes i n := by
  apply slice_congr
  intro k inside
  exact same.bytes (i + k) (fixed k inside)

theorem SameKey.blit (inside : ∀ j, i ≤ j → j < i + bytes.length → fields j) : SameKey fields c (c.blit i bytes) := by
  constructor
  · rfl
  · intro j fixed
    apply blit_outside
    by_contra between
    exact fixed (inside j (by omega) (by omega))

-- A word is stored at bytes that may change.
theorem word_inside {n v : Nat} {made : Prop} (inside : ∀ k < n, fields (i + k)) :
    made ∨ ∀ j, i ≤ j → j < i + (leBytes n v).length → fields j := by
  right
  intro j lower upper
  rw [leBytes_length] at upper
  obtain ⟨k, rfl⟩ := Nat.exists_eq_add_of_le lower
  exact inside k (by omega)

end Keys

section Moving
variable {scope scope' : Scope} {roles roles' roles'' : Roles} {h h' h'' : Hive}

theorem Moves.refl (scope : Scope) (roles : Roles) (h : Hive) : Moves scope roles h roles h :=
  ⟨Keeps.refl h, fun _ _ => rfl, fun _ _ _ => rfl, fun _ _ _ => rfl, fun _ _ gone => gone,
    fun _ _ _ _ _ c _ found found' => Option.some.inj (found.symm.trans found') ▸ SameKey.refl _ c,
    Extends.refl roles, fun _ _ untagged tagged => (by rw [untagged] at tagged; cases tagged), SameHeader.refl h⟩

theorem Moves.trans (first : Moves scope roles h roles' h') (second : Moves scope roles' h' roles'' h'') :
    Moves scope roles h roles'' h'' := by
  have frontier := first.keeps.frontier
  constructor
  · exact first.keeps.trans second.keeps
  · intro b below
    rw [second.tags b (by omega), first.tags b below]
  · intro b below apart
    rw [second.frame b (by omega), first.frame b below apart]
    rw [first.tags b below]
    exact apart
  · intro b below apart
    rw [second.stays b (by omega), first.stays b below apart]
    rw [first.tags b below]
    exact apart
  · intro b below gone
    exact second.gone b (by omega) (first.gone b below gone)
  · intro b below old up tagged c c'' found found''
    cases between : h'.cell b with
    | none =>
        rw [second.gone b (by omega) between] at found''
        cases found''
    | some c' =>
        have tagged' := (first.tags b below).trans tagged
        exact (first.steady b below old up tagged c c' found between).trans
          (second.steady b (by omega) old up tagged' c' c'' between found'')
  · exact first.grows.trans second.grows
  · intro b role untagged tagged
    cases between : roles' b with
    | none => exact second.born b role between tagged
    | some other =>
        have same := second.grows b other between
        rw [tagged] at same
        rw [← same] at between
        exact first.born b role untagged between
  · exact first.header.trans second.header

-- A block with a role, outside the scope.
theorem Moves.same (moves : Moves scope roles h roles' h') (typed : Typed h roles) {b : Nat} {role : Role}
    (tagged : roles b = some role) (notWritten : ¬scope.writes b role) (notFreed : ¬scope.frees b role) :
    h'.cell b = h.cell b := by
  apply moves.frame b (typed.bounds b role tagged).2
  intro role' tagged'
  rw [tagged] at tagged'
  cases tagged'
  exact ⟨notWritten, notFreed⟩

theorem Moves.alive (moves : Moves scope roles h roles' h') (typed : Typed h roles) {b : Nat} {role : Role}
    (tagged : roles b = some role) (notFreed : ¬scope.frees b role) :
    (h'.cell b).isSome = (h.cell b).isSome := by
  apply moves.stays b (typed.bounds b role tagged).2
  intro role' tagged'
  rw [tagged] at tagged'
  cases tagged'
  exact notFreed

-- A new key is born below a key that may get children.
theorem Moves.newKey (moves : Moves scope roles h roles' h') {b : Nat} {up : Option Nat} (untagged : roles b = none)
    (tagged : roles' b = some (.nk up)) : ∃ p, up = some p ∧ scope.bears p :=
  (moves.born b _ untagged tagged).2 up rfl

-- No call makes a security record.
theorem Moves.oldSk (moves : Moves scope roles h roles' h') {s : Nat} (isSk : roles' s = some .sk) :
    roles s = some .sk := by
  cases known : roles s with
  | none => exact absurd rfl (moves.born s _ known isSk).1
  | some role =>
      rw [← isSk, moves.grows s role known]

/-- The changes stay in a wider scope. -/
theorem Moves.widen (moves : Moves scope roles h roles' h')
    (wider : ∀ b < h.frontier, ∀ role, roles b = some role → (scope.writes b role → scope'.writes b role) ∧
      (scope.frees b role → scope'.frees b role))
    (makes : ∀ b < h.frontier, scope.makes b → scope'.makes b)
    (bears : ∀ p, scope.bears p → scope'.bears p) (fields : ∀ i, scope.fields i → scope'.fields i) :
    Moves scope' roles h roles' h' := by
  constructor
  · exact moves.keeps
  · exact moves.tags
  · intro b below apart
    apply moves.frame b below
    intro role tagged
    obtain ⟨writes, frees⟩ := wider b below role tagged
    exact ⟨fun written => (apart role tagged).1 (writes written), fun freed => (apart role tagged).2 (frees freed)⟩
  · intro b below apart
    apply moves.stays b below
    intro role tagged freed
    exact apart role tagged ((wider b below role tagged).2 freed)
  · exact moves.gone
  · intro b below old up tagged c c' found found'
    have notMade : ¬scope.makes b := fun made => old (makes b below made)
    exact (moves.steady b below notMade up tagged c c' found found').mono fields
  · exact moves.grows
  · intro b role untagged tagged
    obtain ⟨notSk, parents⟩ := moves.born b role untagged tagged
    refine ⟨notSk, fun up isNk => ?_⟩
    obtain ⟨p, isParent, bearing⟩ := parents up isNk
    exact ⟨p, isParent, bears p bearing⟩
  · exact moves.header

/-- The changes of one block `b`, all others are as before. -/
theorem Moves.one {b : Nat} {role : Role} (keeps : Keeps h h') (header : SameHeader h h') (tagged : roles b = some role)
    (others : ∀ x, x ≠ b → h'.cell x = h.cell x) (allowed : scope.writes b role ∨ scope.frees b role)
    (alive : (h'.cell b).isSome = (h.cell b).isSome ∨ scope.frees b role ∧ h'.cell b = none)
    (steady : ¬scope.makes b → ∀ up, role = .nk up → ∀ c c', h.cell b = some c → h'.cell b = some c' →
      SameKey scope.fields c c') :
    Moves scope roles h roles h' := by
  constructor
  · exact keeps
  · exact fun _ _ => rfl
  · intro x _ apart
    apply others
    rintro rfl
    have outside := apart role tagged
    exact allowed.elim outside.1 outside.2
  · intro x _ apart
    by_cases here : x = b
    · subst here
      rcases alive with same | ⟨freed, -⟩
      · exact same
      · exact absurd freed (apart role tagged)
    · rw [others x here]
  · intro x _ gone
    by_cases here : x = b
    · subst here
      rcases alive with same | ⟨-, none⟩
      · rw [gone] at same
        exact Option.isSome_eq_false_iff.mp same |> Option.isNone_iff_eq_none.mp
      · exact none
    · rw [others x here, gone]
  · intro x _ old up isNk c c' found found'
    by_cases here : x = b
    · subst here
      exact steady old up (Option.some.inj (tagged.symm.trans isNk)) c c' found found'
    · rw [others x here, found] at found'
      cases found'
      exact SameKey.refl _ c
  · exact Extends.refl roles
  · intro x other untagged tagged'
    rw [untagged] at tagged'
    cases tagged'
  · exact header

end Moving

/-- The promise of a call. An assertion that fails ends the program, as does a buffer that is
gone while the handle still points at it. -/
def contract (host : Host) (scope : Scope) : Contract Stop Hive Roles where
  inv := fun roles h => Kept h roles
  moves := Moves scope
  returns := Coded
  ends := fun stop => stop = .dangling ∧ host.Unsteady ∨ stop = .abort
  refl := Moves.refl scope
  trans := Moves.trans

/-- From `h` the program keeps the contract and ends in `post`, or returns an error in `onError`. -/
abbrev Promises {α : Type} (host : Host) (scope : Scope) (roles : Roles) (program : Command α)
    (post : α → Roles → Hive → Prop) (onError : Roles → Hive → Prop) (h : Hive) : Prop :=
  Runs (contract host scope) roles program post onError h

/-- The promise of a program whose errors tell nothing. -/
abbrev Abides {α : Type} (host : Host) (scope : Scope) (roles : Roles) (program : Command α)
    (post : α → Roles → Hive → Prop) (h : Hive) : Prop :=
  Promises host scope roles program post (fun _ _ => True) h

section Primitives
variable {host : Host} {scope : Scope} {h h' : Hive} {roles : Roles} {b i : Nat} {c : Cell} {role : Role}
  {bytes : List UInt8} {id : List UInt8} {α β : Type} {final : β → Roles → Hive → Prop}
  {onError : Roles → Hive → Prop}

theorem Kept.fail (kept : Kept h roles) (code : Errno) {post : α → Roles → Hive → Prop}
    (fails : onError roles h := by trivial) : Promises host scope roles (Hivex.fail code) post onError h :=
  Runs.throw (contract host scope) (coded code) kept fails

theorem Kept.leaves (kept : Kept h roles) (code : Errno) {next : α → Command β}
    (fails : onError roles h := by trivial) :
    Promises host scope roles (Hivex.fail code >>= next) final onError h :=
  Or.inr ⟨coded code, roles, kept, Moves.refl scope roles h, fails⟩

theorem Kept.done (kept : Kept h roles) (value : α) {post : α → Roles → Hive → Prop} (holds : post value roles h) :
    Promises host scope roles (pure value) post onError h :=
  Runs.pure (contract host scope) value kept holds

theorem Kept.query (kept : Kept h roles) {query : Reader α} {next : α → Command β} {values : α → Prop}
    (result : Ends (query h.view) values Coded)
    (continues : ∀ value, values value → Promises host scope roles (next value) final onError h)
    (fails : onError roles h := by trivial) :
    Promises host scope roles (Hivex.read query >>= next) final onError h :=
  Runs.query kept result fails continues

theorem Promises.mono {program : Command α} {post post' : α → Roles → Hive → Prop}
    (promises : Promises host scope roles program post onError h)
    (weaker : ∀ value roles' h', Kept h' roles' → Moves scope roles h roles' h' → post value roles' h' →
      post' value roles' h') : Promises host scope roles program post' onError h :=
  Runs.mono promises weaker fun _ _ _ _ fails => fails

/-- A program that keeps to a narrower scope. -/
theorem Promises.widen {program : Command α} {scope' : Scope} {post : α → Roles → Hive → Prop}
    (promises : Promises host scope roles program post onError h)
    (wider : ∀ roles' h', Moves scope roles h roles' h' → Moves scope' roles h roles' h') :
    Promises host scope' roles program post onError h :=
  Runs.weaken promises (fun _ _ kept => kept) wider (fun _ returned => returned) fun _ stopped => stopped

theorem Promises.forM {body : α → Command PUnit} {post : PUnit → Roles → Hive → Prop}
    (loop : List α → Roles → Hive → Prop)
    (step : ∀ x rest roles h, Kept h roles → loop (x :: rest) roles h →
      Promises host scope roles (body x) (fun _ roles' h' => loop rest roles' h') onError h)
    (xs : List α) (kept : Kept h roles) (start : loop xs roles h)
    (done : ∀ roles' h', loop [] roles' h' → post ⟨⟩ roles' h') :
    Promises host scope roles (xs.forM body) post onError h :=
  Promises.mono (Runs.forM loop step xs kept start) fun _ roles' h' _ _ holds => done roles' h' holds

-- An assertion that returns has passed.
theorem Promises.assert {condition : Bool} {next : Unit → Command β}
    (continues : condition = true → Promises host scope roles (next ()) final onError h) :
    Promises host scope roles (Hivex.assert condition >>= next) final onError h := by
  cases condition with
  | true => exact continues rfl
  | false => exact Or.inl (Or.inr rfl)

/-- A write to a block that is not a security record. -/
theorem Kept.write (kept : Kept h roles) (tagged : roles b = some role) (notSk : role ≠ .sk)
    (found : h.cell b = some c) (allowed : scope.writes b role) (lower : 4 ≤ i)
    (upper : i + bytes.length ≤ c.len) (fits : RoleFits roles b role (c.blit i bytes))
    (steady : ∀ up, role = .nk up → scope.makes b ∨ ∀ j, i ≤ j → j < i + bytes.length → scope.fields j := by simp) :
    Promises host scope roles (wrBytes (b + i) bytes)
      (fun _ roles' h' => roles' = roles ∧ Wrote h h' b (c.blit i bytes)) onError h := by
  have behind := (kept.bounds b role tagged).1
  have spares : Spares 0 0x1000 (wrBytes (b + i) bytes) := Spares.wrBytes (Or.inr (by omega))
  apply wp_header spares.header
  apply kept.toTyped.wp_write tagged found lower upper fits
  intro h' typed becomes header
  have wrote := becomes.wrote
  have ring : Linked (skBlocks roles h'.cell) h'.cell.skNext h'.cell.skPrev := by
    apply ring_congr kept.ring fun _ => Iff.rfl
    intro s isSk
    apply wrote.others
    rintro rfl
    rw [tagged] at isSk
    exact notSk (Option.some.inj isSk)
  have moves : Moves scope roles h roles h' := by
    apply Moves.one wrote.keeps header tagged wrote.others (Or.inl allowed)
    · rw [wrote.here, found]
      exact Or.inl rfl
    · intro old up isNk d d' before after
      rw [found] at before
      rw [wrote.here] at after
      cases before
      cases after
      exact SameKey.blit ((steady up isNk).resolve_left old)
  exact ⟨roles, ⟨typed, ring⟩, moves, rfl, wrote⟩

theorem Kept.free (kept : Kept h roles) (tagged : roles b = some role) (notSk : role ≠ .sk)
    (allowed : scope.frees b role) :
    Promises host scope roles (markBlockUnused b)
      (fun _ roles' h' => roles' = roles ∧ (h.cell b).isSome ∧
        h'.cell = Function.update h.cell b none) onError h := by
  cases found : h.cell b with
  | none =>
      unfold Promises Runs wp
      rw [markBlockUnused_gone kept.writable found]
      exact Or.inl (Or.inr rfl)
  | some c =>
      have behind := (kept.bounds b role tagged).1
      have spares : Spares 0 0x1000 (markBlockUnused b) := Spares.markBlockUnused (Or.inr (by omega))
      apply wp_header spares.header
      apply kept.toTyped.sound.wp_free kept.writable found
      intro h' becomes header
      have others : ∀ s, s ≠ b → h'.cell s = h.cell s := by
        intro s other
        rw [becomes.cells, Function.update_of_ne other]
      have ring : Linked (skBlocks roles h'.cell) h'.cell.skNext h'.cell.skPrev := by
        apply ring_congr kept.ring fun _ => Iff.rfl
        intro s isSk
        apply others
        rintro rfl
        rw [tagged] at isSk
        exact notSk (Option.some.inj isSk)
      have typed := kept.toTyped.becomes becomes (kept.cells.free b)
      have gone : h'.cell b = none := by rw [becomes.cells, Function.update_self]
      have moves : Moves scope roles h roles h' :=
        Moves.one becomes.keeps header tagged others (Or.inr allowed) (Or.inr ⟨allowed, gone⟩) fun _ _ _ _ _ _ found' => by
          rw [gone] at found'
          cases found'
      exact ⟨roles, ⟨typed, ring⟩, moves, rfl, rfl, becomes.cells⟩

theorem Wrote.becomes (wrote : Wrote h h' b c) : Becomes h h' (Function.update h.cell b (some c)) := by
  apply Becomes.mk wrote.sound wrote.keeps
  funext x
  by_cases here : x = b
  · rw [here, Function.update_self, wrote.here]
  · rw [Function.update_of_ne here, wrote.others x here]

/-- A new block with a role. -/
theorem Kept.placed (kept : Kept h roles) (wrote : Wrote h h' b c) (header : SameHeader h h') (fresh : h.frontier ≤ b) (notSk : role ≠ .sk)
    (parent : ∀ up, role = .nk up → ∃ q, up = some q ∧ scope.bears q ∧ ∃ g, roles q = some (.nk g))
    (fits : RoleFits (Function.update roles b (some role)) b role c) :
    Kept h' (Function.update roles b (some role)) ∧
      Moves scope roles h (Function.update roles b (some role)) h' := by
  have untagged := kept.toTyped.untagged fresh
  have parents : ∀ q, role = .nk (some q) → ∃ g, roles q = some (.nk g) := by
    intro q isNk
    obtain ⟨p, same, -, isKey⟩ := parent _ isNk
    cases same
    exact isKey
  have typed := kept.toTyped.placed wrote.becomes fresh parents fits
  have ring : Linked (skBlocks (Function.update roles b (some role)) h'.cell) h'.cell.skNext
      h'.cell.skPrev := by
    apply ring_congr kept.ring
    · intro s
      by_cases here : s = b
      · subst here
        rw [Function.update_self, untagged]
        simp [notSk]
      · rw [Function.update_of_ne here]
    · intro s isSk
      apply wrote.others
      rintro rfl
      rw [untagged] at isSk
      cases isSk
  constructor
  · exact ⟨typed, ring⟩
  constructor
  · exact wrote.keeps
  · intro s before
    rw [Function.update_of_ne (by omega)]
  · intro s before _
    exact wrote.others s (by omega)
  · intro s before _
    rw [wrote.others s (by omega)]
  · intro s before gone
    rw [wrote.others s (by omega), gone]
  · intro s before _ up _ c c' found found'
    rw [wrote.others s (by omega), found] at found'
    cases found'
    exact SameKey.refl _ c
  · exact extends_update untagged role
  · intro s other unknown tagged
    by_cases here : s = b
    · rw [here, Function.update_self] at tagged
      obtain rfl := Option.some.inj tagged
      refine ⟨notSk, fun up isNk => ?_⟩
      obtain ⟨q, isParent, bears, -⟩ := parent up isNk
      exact ⟨q, isParent, bears⟩
    · rw [Function.update_of_ne here, unknown] at tagged
      cases tagged
  · exact header

/-- An allocation that stops leaves the handle as it was. -/
theorem Kept.allocates {segLen : Nat} (kept : Kept h roles) (scope : Scope) (below : host.Below4G)
    (idFits : id.length ≤ 2) (fails : onError roles h) :
    wp (allocateBlock host segLen id)
      (fun b h' => Wrote h h' b (freshCell ((segLen + 7) / 8 * 8) id) ∧ h.frontier ≤ b)
      (fun reason h' => (contract host scope).ends reason ∨ (contract host scope).returns reason ∧
        ∃ roles', (contract host scope).inv roles' h' ∧ (contract host scope).moves roles h roles' h' ∧
          onError roles' h') h := by
  apply wp_mono (kept.toTyped.sound.allocateBlock below idFits)
  · rintro b h' ⟨placed, -⟩
    exact ⟨placed.becomes.wrote, placed.fresh⟩
  · rintro reason h' ⟨rfl, ⟨rfl, unsteady⟩ | rfl | ⟨rfl, -⟩ | ⟨rfl, -⟩⟩
    · exact Or.inl (Or.inl ⟨rfl, unsteady⟩)
    · exact Or.inr ⟨coded _, roles, kept, Moves.refl scope roles h', fails⟩
    · exact Or.inr ⟨coded _, roles, kept, Moves.refl scope roles h', fails⟩
    · exact Or.inr ⟨coded _, roles, kept, Moves.refl scope roles h', fails⟩

theorem Kept.alloc {segLen : Nat} (kept : Kept h roles) (role : Role) (below : host.Below4G)
    (idFits : id.length ≤ 2) (notSk : role ≠ .sk) (parent : ∀ up, role = .nk up → ∃ q, up = some q ∧ scope.bears q ∧ ∃ g, roles q = some (.nk g))
    (fits : ∀ b, RoleFits (Function.update roles b (some role)) b role
      (freshCell ((segLen + 7) / 8 * 8) id))
    (fails : onError roles h := by trivial) :
    Promises host scope roles (allocateBlock host segLen id)
      (fun b roles' h' => roles' = Function.update roles b (some role) ∧
        Wrote h h' b (freshCell ((segLen + 7) / 8 * 8) id) ∧ h.frontier ≤ b) onError h := by
  have header : wp (allocateBlock host segLen id) (fun _ h' => SameHeader h h') (fun _ _ => True) h :=
    wp_mono (kept.sound.allocate_header idFits) (fun _ _ done => done.1) fun _ _ _ => trivial
  apply wp_header header
  apply wp_mono (kept.allocates scope below idFits fails)
  · rintro b h' ⟨wrote, fresh⟩ same
    obtain ⟨kept', moves⟩ := kept.placed wrote same fresh notSk parent (fits b)
    exact ⟨_, kept', moves, rfl, wrote, fresh⟩
  · exact fun _ _ stopped => stopped

end Primitives

end Hivex
