import Hivex.HiveAddCall
import Hivex.HiveDeletedSubtree
import Hivex.HiveVisitWalk

/-! The call that deletes a key with everything below it, under the contract of every call. It
may stop half-way, at a record that cannot be read. -/
namespace Hivex

open ByteMemory Commands StoreTyping GhostRuns

/-- The keys below `top` by their roles. -/
def Under (roles : Roles) : Nat → Nat → Prop := Relation.ReflTransGen fun p k => roles k = some (.nk (some p))

/-- A call that deletes `top` frees what the keys below it own. It writes to these keys, to security
records, to the parent and to its lists. A key without a parent stays. -/
def deleteScope (roles : Roles) (top : Nat) : Scope where
  writes := fun b role => ∃ p, roles top = some (.nk (some p)) ∧ (b = p ∨ role = .lf p ∨ role = .sk ∨ Under roles top b)
  frees := fun b role => ∃ p, roles top = some (.nk (some p)) ∧
    (role = .sk ∨ ∃ n, Under roles top n ∧ role.owner b = some n)
  makes := fun _ => False
  bears := fun _ => False
  fields := linkFields

/-- The scope contains the key, what it owns and the security records. -/
structure Admits (scope : Scope) (node : Nat) : Prop where
  writes : ∀ role, scope.writes node role
  frees : ∀ b role, role.owner b = some node → scope.frees b role
  counts : ∀ s, scope.writes s .sk ∧ scope.frees s .sk
  fields : ∀ i, linkFields i → scope.fields i

theorem Under.admits {roles : Roles} {top node p : Nat} (under : Under roles top node)
    (tagged : roles top = some (.nk (some p))) : Admits (deleteScope roles top) node where
  writes := fun _ => ⟨p, tagged, Or.inr (Or.inr (Or.inr under))⟩
  frees := fun _ _ owned => ⟨p, tagged, Or.inr ⟨node, under, owned⟩⟩
  counts := fun _ => ⟨⟨p, tagged, Or.inr (Or.inr (Or.inl rfl))⟩, p, tagged, Or.inl rfl⟩
  fields := fun _ changed => changed

section Releasing
variable {host : Host} {scope : Scope} {h k : Hive} {roles : Roles} {node s w : Nat} {c : Cell} {parent : Option Nat}

/-- The last reference takes a security record out of its ring. -/
theorem Kept.dropsSk (kept : Kept h roles) (tagged : roles s = some .sk) (found : h.cell s = some c)
    (allowed : ∀ s, scope.writes s .sk ∧ scope.frees s .sk) :
    Abides host scope roles (do
      Hivex.unlinkSk s
      markBlockUnused s)
      (fun _ roles' h' => roles' = roles ∧ ∀ b, roles b ≠ some .sk → h'.cell b = h.cell b) h := by
  have behind := (kept.bounds s .sk tagged).1
  have spares : Spares 0 0x1000 (do
      Hivex.unlinkSk s
      markBlockUnused s) := (Spares.unlinkSk s).bind fun _ => Spares.markBlockUnused (Or.inr (by omega))
  unfold Abides Promises Runs
  apply wp_header spares.header
  apply wp_seq (kept.unlinkSk tagged found)
  intro _ g unlinked
  apply unlinked.typed.wp_free (Or.inl (Or.inr rfl))
  intro d k _ typed becomes header
  have away : ∀ b, b ≠ s → k.cell b = g.cell b := by
    intro b other
    rw [becomes.cells, Function.update_of_ne other]
  have others : ∀ b, roles b ≠ some .sk → k.cell b = h.cell b := by
    intro b notSk
    have other : b ≠ s := fun same => notSk (same ▸ tagged)
    rw [away b other, unlinked.others b notSk]
  refine ⟨roles, kept.freed tagged found unlinked typed becomes.cells, ?_, rfl, others⟩
  constructor
  · exact unlinked.keeps.trans becomes.keeps
  · exact fun _ _ => rfl
  · intro b _ outside
    apply others
    intro isSk
    exact (outside .sk isSk).1 (allowed b).1
  · intro b _ outside
    rw [others b]
    intro isSk
    exact outside .sk isSk (allowed b).2
  · intro b _ absent
    by_cases here : b = s
    · rw [here, becomes.cells, Function.update_self]
    · rw [away b here]
      have count := unlinked.counts b
      rw [refcount_none.mpr absent] at count
      exact refcount_none.mp count
  · intro b _ _ up isNk c c' before after
    rw [others b (by rw [isNk]; simp), before] at after
    cases after
    exact SameKey.refl _ c
  · exact Extends.refl roles
  · intro b role untagged tagged'
    rw [untagged] at tagged'
    cases tagged'
  · exact header

theorem Kept.deletesSk (kept : Kept h roles) (points : Points roles w .sk)
    (allowed : ∀ s, scope.writes s .sk ∧ scope.frees s .sk) :
    Abides host scope roles (Hivex.deleteSk (w + 0x1000))
      (fun _ roles' h' => roles' = roles ∧ ∀ b, roles b ≠ some .sk → h'.cell b = h.cell b) h := by
  unfold Hivex.deleteSk
  apply Runs.known (isValidBlock_view _)
  cases found : h.cell (w + 0x1000) with
  | none =>
      rw [valid_eq_isSome, found]
      exact kept.leaves .EFAULT
  | some c =>
  obtain ⟨tagged, fits⟩ := kept.toTyped.follow points found
  have long := SkTyped.len fits
  rw [(cell_some found).1, if_pos rfl]
  apply Runs.known (blockIdEq_cell kept.sound found _)
  rw [if_pos (decide_eq_true (SkTyped.id fits))]
  apply Runs.known (rd32_cell (i := Sk.refcount) kept.sound found (by simp only [Sk.refcount]; omega))
  apply Runs.ite
  · exact fun _ => kept.leaves .EINVAL
  intro _
  apply (kept.countSk tagged found (allowed _).1).bind
  rintro _ roles' h₁ kept₁ - ⟨rfl, counted⟩
  have others₁ : ∀ b, roles' b ≠ some .sk → h₁.cell b = h.cell b :=
    fun b notSk => counted.others b fun same => notSk (same ▸ tagged)
  apply Runs.ite
  · intro _
    apply (kept₁.dropsSk tagged counted.here allowed).mono
    rintro _ roles'' h₂ - - ⟨same, others₂⟩
    exact ⟨same, fun b notSk => (others₂ b notSk).trans (others₁ b notSk)⟩
  · exact fun _ => kept₁.done _ ⟨rfl, others₁⟩

/-- The reference of a key to its security record. -/
theorem Kept.releasesSk (kept : Kept h roles) (tagged : roles node = some (.nk parent)) (found : h.cell node = some c)
    (admits : Admits scope node) :
    Abides host scope roles (Hivex.releaseSk node)
      (fun _ roles' h' => roles' = roles ∧ (h'.cell node).isSome) h := by
  have fits := kept.toTyped.nk tagged found
  have long := fits.len
  unfold Hivex.releaseSk
  apply Runs.known (rd32_cell (i := Nk.sk) kept.sound found (by simp only [Nk.sk]; omega))
  apply Runs.ite
  · intro _
    apply (kept.deletesSk fits.sk admits.counts).bind
    rintro _ roles' h₁ kept₁ - ⟨rfl, others⟩
    have found₁ := (others node (by rw [tagged]; simp)).trans found
    apply (kept₁.write tagged (by simp) found₁ (admits.writes _) (by decide)
      (by rw [leBytes_length]; simp only [Nk.sk]; omega)
      ((kept₁.toTyped.nk tagged found₁).nullified (Or.inl rfl))
      fun _ _ => word_inside fun k inside => admits.fields _ (linkFields_word (n := 4) (by decide) (by decide) inside)).mono
    rintro _ roles'' h₂ - - ⟨same, wrote⟩
    refine ⟨same, ?_⟩
    rw [wrote.here]
    rfl
  · intro _
    apply kept.done
    refine ⟨rfl, ?_⟩
    rw [found]
    rfl

theorem Kept.releasesClassname (kept : Kept h roles) (tagged : roles node = some (.nk parent))
    (found : h.cell node = some c) (admits : Admits scope node) :
    Abides host scope roles (releaseClassname node) (fun _ roles' _ => roles' = roles) h := by
  have fits := kept.toTyped.nk tagged found
  have long := fits.len
  unfold releaseClassname
  apply Runs.known (rd32_cell (i := Nk.classname) kept.sound found (by simp only [Nk.classname]; omega))
  apply Runs.ite
  · intro _
    apply (kept.freeAt fits.classname (by simp) fun _ => admits.frees _ _ rfl).bind
    rintro _ roles' h₁ kept₁ - ⟨rfl, isClass, cells⟩
    have apart : node ≠ c.get32 Nk.classname + 0x1000 := by
      intro same
      rw [← same, tagged] at isClass
      cases isClass
    have found₁ : h₁.cell node = some c := by
      rw [cells, Function.update_of_ne apart, found]
    apply (kept₁.write tagged (by simp) found₁ (admits.writes _) (by decide)
      (by rw [leBytes_length]; simp only [Nk.classname]; omega)
      ((kept₁.toTyped.nk tagged found₁).nullified (Or.inr rfl))
      fun _ _ => word_inside fun k inside => admits.fields _ (linkFields_word (n := 4) (by decide) (by decide) inside)).mono
    exact fun _ _ _ _ _ ⟨same, _⟩ => same
  · exact fun _ => kept.done _ rfl

/-- One key is freed with all that it owns. -/
theorem Kept.deletesNode (kept : Kept h roles) (tagged : roles node = some (.nk parent)) (admits : Admits scope node) :
    Abides host scope roles (Hivex.deleteNode node) (fun _ roles' _ => roles' = roles) h := by
  have blocksRead : Ends (getChildren node true h.view) (fun r => ∀ b ∈ r.2,
      roles b = some (.ri node) ∨ roles b = some (.lf node)) Coded := by
    cases found : h.cell node with
    | none =>
        unfold getChildren
        rw [bind_query, requireBlock_none found]
        exact coded _
    | some c =>
        apply (getChildren_typed kept.toTyped tagged found true).mono
        · rintro ⟨children, blocks⟩ (⟨-, isEmpty⟩ | read)
          · cases isEmpty
            simp
          · exact fun b member => (read.each member).1
        · exact fun _ stopped => stopped
  have values : ∀ b role, role.holdsValues node → scope.frees b role := by
    intro b role holds
    apply admits.frees
    cases role with
    | vallist owner slots => exact congrArg some holds
    | vk owner => exact congrArg some holds
    | data owner vk => exact congrArg some holds
    | nk parent => exact holds.elim
    | lf owner => exact holds.elim
    | ri owner => exact holds.elim
    | classname owner => exact holds.elim
    | sk => exact holds.elim
    | void => exact holds.elim
  unfold Hivex.deleteNode
  apply kept.query blocksRead
  rintro ⟨children, blocks⟩ isList
  apply (kept.freeAll fun b member => ?_).bind
  · rintro _ roles' h₁ kept₁ - ⟨rfl, -⟩
    apply (kept₁.deleteValues tagged values (admits.writes _) fun i changed => admits.fields i (valueWords_link changed)).bind
    rintro _ roles' h₂ kept₂ - ⟨rfl, c, found₂, -⟩
    apply (kept₂.releasesSk tagged found₂ admits).bind
    rintro _ roles' h₃ kept₃ - ⟨rfl, alive⟩
    obtain ⟨d, found₃⟩ := Option.isSome_iff_exists.mp alive
    apply (kept₃.releasesClassname tagged found₃ admits).bind
    rintro _ roles' h₄ kept₄ - rfl
    apply (kept₄.free tagged (by simp) (admits.frees node _ rfl)).mono
    exact fun _ _ _ _ _ ⟨same, _⟩ => same
  · rcases isList b member with isRi | isLf
    · exact ⟨_, isRi, by simp, admits.frees b _ rfl⟩
    · exact ⟨_, isLf, by simp, admits.frees b _ rfl⟩

end Releasing

section Values
variable {host : Host} {scope : Scope} {h : Hive} {roles : Roles} {node v owner t len : Nat} {key : List UInt8}
  {onError : Roles → Hive → Prop}

theorem hivexValueType_tagged (typed : Typed h roles) (tagged : roles v = some (.vk owner)) :
    Ends (hivexValueType v h.view) (fun _ => True) Coded := by
  apply (requireBlock_ends typed.sound Vk.id).seq
  rintro _ ⟨c, found, -⟩
  have fits : VkTyped roles owner v c := typed.cells _ _ _ tagged found
  have long := fits.len
  apply Ends.known (rd32_cell (i := Vk.dataType) typed.sound found (by simp only [Vk.dataType]; omega))
  apply Ends.known (rd32_cell (i := Vk.dataLen) typed.sound found (by simp only [Vk.dataLen]; omega))
  trivial

theorem windowsUtf16ToUtf8_ends (input : List UInt8) :
    Ends (windowsUtf16ToUtf8 host input h.view) (fun _ => True) Coded := by
  unfold windowsUtf16ToUtf8
  cases host.iconv input with
  | ok out => trivial
  | error code => exact coded code

theorem hivexValueString_handle (typed : Typed h roles) (handle : IsHandle roles v) :
    Ends (hivexValueString host v h.view) (fun _ => True) Coded := by
  apply (hivexValueValue_handle typed handle).seq
  rintro ⟨t, data⟩ _
  dsimp only
  split
  · exact coded _
  · exact windowsUtf16ToUtf8_ends _

theorem multipleStringsFrom_ends (fuel : Nat) (data : List UInt8) :
    Ends (multipleStringsFrom host fuel data h.view) (fun _ => True) Coded := by
  induction fuel generalizing data with
  | zero => trivial
  | succ fuel ih =>
      unfold multipleStringsFrom
      dsimp only
      split
      · trivial
      · apply (windowsUtf16ToUtf8_ends _).seq
        intro str _
        apply (ih _).seq
        exact fun _ _ => trivial

theorem hivexValueMultipleStrings_handle (typed : Typed h roles) (handle : IsHandle roles v) :
    Ends (hivexValueMultipleStrings host v h.view) (fun _ => True) Coded := by
  apply (hivexValueValue_handle typed handle).seq
  rintro ⟨t, data⟩ _
  dsimp only
  split
  · exact coded _
  · exact multipleStringsFrom_ends _ data

theorem hivexValueDword_handle (typed : Typed h roles) (handle : IsHandle roles v) :
    Ends (hivexValueDword v h.view) (fun _ => True) Coded := by
  apply (hivexValueValue_handle typed handle).seq
  rintro ⟨t, data⟩ _
  dsimp only
  split
  · exact coded _
  · trivial

theorem hivexValueQword_handle (typed : Typed h roles) (handle : IsHandle roles v) :
    Ends (hivexValueQword v h.view) (fun _ => True) Coded := by
  apply (hivexValueValue_handle typed handle).seq
  rintro ⟨t, data⟩ _
  dsimp only
  split
  · exact coded _
  · trivial

/-- A visit of values goes on with the handle as it is, or returns an error. -/
abbrev Looks (host : Host) (scope : Scope) (roles : Roles) (program : Command Bool) (h : Hive) : Prop :=
  Abides host scope roles program (fun going roles' h' => going = true ∧ roles' = roles ∧ h' = h) h

theorem Kept.looks (kept : Kept h roles) : Looks host scope roles (pure true) h := kept.done _ ⟨rfl, rfl, rfl⟩

theorem Kept.stopsLook (kept : Kept h roles) (code : Errno) :
    Looks host scope roles (Hivex.internalError false code) h := kept.fail code

theorem Kept.looksData (kept : Kept h roles) (tagged : roles v = some (.vk owner)) (expected : Option Nat) :
    Looks host scope roles (visitData id false none expected node v key) h := by
  apply Promises.tryQuery (hivexValueValue_tagged kept.toTyped tagged)
  intro result
  cases result with
  | error code => exact kept.stopsLook code
  | ok read =>
      dsimp only
      split
      · exact kept.stopsLook _
      · exact kept.looks

theorem Kept.looksInvalid (kept : Kept h roles) (code : Errno) :
    Looks host scope roles (visitInvalid id deleteVisitor false code node v t len key) h := by
  unfold visitInvalid
  split
  · exact kept.stopsLook code
  · exact kept.looks

theorem Kept.looksTyped (kept : Kept h roles) (tagged : roles v = some (.vk owner)) :
    Looks host scope roles (visitTyped id host deleteVisitor false node v t len key) h := by
  have typed := kept.toTyped
  unfold visitTyped
  split
  · exact kept.looksData tagged _
  split
  · apply Promises.tryQuery (hivexValueString_handle typed (Or.inr ⟨_, tagged⟩))
    intro result
    cases result with
    | error code => exact kept.looksInvalid code
    | ok str => exact kept.looks
  split
  · apply Promises.tryQuery (hivexValueDword_handle typed (Or.inr ⟨_, tagged⟩))
    exact fun _ => kept.looks
  split
  · apply Promises.tryQuery (hivexValueQword_handle typed (Or.inr ⟨_, tagged⟩))
    exact fun _ => kept.looks
  split
  · exact kept.looksData tagged _
  split
  · apply Promises.tryQuery (hivexValueMultipleStrings_handle typed (Or.inr ⟨_, tagged⟩))
    intro result
    cases result with
    | error code => exact kept.looksInvalid code
    | ok strs => exact kept.looks
  · exact kept.looksData tagged _

theorem Kept.looksValues (kept : Kept h roles) (values : List Nat) (each : ∀ v ∈ values, roles v = some (.vk owner)) :
    Looks host scope roles (visitValues id host deleteVisitor false node values) h := by
  induction values with
  | nil => exact kept.looks
  | cons v rest ih =>
      have tagged := each v (by simp)
      have first : Looks host scope roles (visitValue id host deleteVisitor false node v) h := by
        apply Promises.tryQuery (hivexValueType_tagged kept.toTyped tagged)
        intro result
        cases result with
        | error code => exact kept.stopsLook code
        | ok type =>
            apply Promises.tryQuery (hivexValueKey_tagged kept.toTyped tagged)
            intro result
            cases result with
            | error code => exact kept.stopsLook code
            | ok key => exact kept.looksTyped tagged
      apply first.bind
      rintro going roles' h' - - ⟨rfl, rfl, rfl⟩
      exact ih fun x member => each x (List.mem_cons_of_mem v member)

end Values

section Visit
variable {host : Host} {scope : Scope} {h₀ h : Hive} {roles : Roles} {top node : Nat} {c : Cell} {parent : Option Nat}

/-- The visit of a node leaves no more nodes unvisited than there were. -/
abbrev Descends (host : Host) (scope : Scope) (roles : Roles) (h₀ : Hive) (bits : Mem) (program : Command Mem)
    (h : Hive) : Prop :=
  Abides host scope roles program (fun bits' roles' _ => roles' = roles ∧
    (unvisited (bitmapLen h₀.size) bits').card ≤ (unvisited (bitmapLen h₀.size) bits).card) h

/-- A key that the visit may come to: it was in use when the visit began. -/
structure Visits (roles : Roles) (h₀ : Hive) (top node : Nat) : Prop where
  tagged : ∃ parent, roles node = some (.nk parent)
  under : Under roles top node
  alive : (h₀.cell node).isSome

theorem Promises.step {α : Type} {query : Query Stop Unit α} {next : α → Command Mem} {value : α}
    {final : Mem → Roles → Hive → Prop} (result : query () = .ok value)
    (continues : Promises host scope roles (next value) final (fun _ _ => True) h) :
    Promises host scope roles (look (fun _ => ()) query >>= next) final (fun _ _ => True) h :=
  Runs.known result continues

theorem Kept.visits (kept₀ : Kept h₀ roles) (admits : ∀ n, Under roles top n → Admits scope n) (fuel : Nat) :
    ∀ node bits h, Visits roles h₀ top node → Kept h roles → Moves scope roles h₀ roles h →
      (unvisited (bitmapLen h₀.size) bits).card < fuel →
      Descends host scope roles h₀ bits
        (visitNode id host deleteVisitor false (bitmapLen h₀.size) fuel node bits) h := by
  induction fuel with
  | zero => exact fun _ _ _ _ _ _ enough => absurd enough (Nat.not_lt_zero _)
  | succ fuel ih =>
      intro node bits h ⟨⟨parent, tagged⟩, under, alive⟩ kept moves enough
      obtain ⟨c₀, found₀⟩ := Option.isSome_iff_exists.mp alive
      have bounds := kept₀.sound.cell_bounds found₀
      have inside : node / 32 < bitmapLen h₀.size := by
        unfold bitmapLen
        omega
      unfold visitNode
      have tested : bitmapTst bits (bitmapLen h₀.size) node = .ok (PackedBits.test bits (node / 4)) := if_pos inside
      apply Promises.step tested
      cases marked : PackedBits.test bits (node / 4) with
      | false => exact kept.leaves .ELOOP
      | true =>
          rw [marked] at tested
          have fewer := unvisited_clear tested
          have cleared : bitmapClr bits (bitmapLen h₀.size) node = .ok (PackedBits.clear bits (node / 4)) := if_pos inside
          apply Promises.step cleared
          apply Promises.tryReads (hivexNodeName_tagged kept.toTyped tagged)
          · intro name _
            unfold visitContents
            apply Promises.tryReads (hivexNodeValues_tagged kept.toTyped tagged)
            · intro values isVk
              apply (kept.looksValues values fun v member => (isVk v member).1).bind
              rintro going roles' h' - - ⟨rfl, rfl, rfl⟩
              apply Promises.tryReads (hivexNodeChildren_tagged kept.toTyped tagged)
              · intro children each
                have below : ∀ k ∈ children, Visits roles' h₀ top k := by
                  intro k member
                  obtain ⟨isNk, alive'⟩ := each k member
                  refine ⟨⟨_, isNk⟩, under.tail isNk, ?_⟩
                  by_contra absent
                  have before := (kept₀.bounds k _ isNk).2
                  rw [moves.gone k before (Option.not_isSome_iff_eq_none.mp absent)] at alive'
                  cases alive'
                have folded : Abides host scope roles' (children.foldlM
                    (fun unvisited child => visitNode id host deleteVisitor false (bitmapLen h₀.size) fuel child unvisited)
                    (PackedBits.clear bits (node / 4)))
                    (fun bits' roles'' _ => roles'' = roles' ∧ (unvisited (bitmapLen h₀.size) bits').card ≤
                      (unvisited (bitmapLen h₀.size) (PackedBits.clear bits (node / 4))).card) h' := by
                  apply Promises.mono (Runs.foldlM (fun rest bits' roles'' h'' => (roles'' = roles' ∧
                    (unvisited (bitmapLen h₀.size) bits').card ≤
                      (unvisited (bitmapLen h₀.size) (PackedBits.clear bits (node / 4))).card) ∧
                    Moves scope roles' h₀ roles' h'' ∧ ∀ k ∈ rest, Visits roles' h₀ top k) _ children _ kept
                    ⟨⟨rfl, Nat.le_refl _⟩, moves, below⟩)
                  · exact fun _ _ _ _ _ holds => holds.1
                  · rintro bits' k rest roles'' h'' kept'' ⟨⟨rfl, few⟩, moves'', each''⟩
                    apply (ih k bits' h'' (each'' k (by simp)) kept'' moves'' (by omega)).mono
                    rintro bits'' _ h₃ - moves₃ ⟨rfl, fewer'⟩
                    exact ⟨⟨rfl, fewer'.trans few⟩, moves''.trans moves₃,
                      fun x member => each'' x (List.mem_cons_of_mem k member)⟩
                apply folded.bind
                rintro bits' roles'' h₁ kept₁ - ⟨rfl, few⟩
                apply (kept₁.deletesNode tagged (admits node under)).bind
                rintro _ _ h₂ kept₂ - rfl
                exact kept₂.done _ ⟨rfl, by omega⟩
              · exact fun code => kept.leaves code
            · exact fun code => kept.leaves code
          · exact fun code => kept.leaves code

end Visit

section Unlinking
variable {host : Host} {scope : Scope} {h : Hive} {roles : Roles} {node p b : Nat} {c l : Cell} {up : Option Nat}

theorem Kept.unlinksChild (kept : Kept h roles) (low : 0x1000 ≤ node) (small : node < 2 ^ 32)
    (allowed : ∀ b, scope.writes b (.lf p)) (blocks : List Nat)
    (each : ∀ b ∈ blocks, (roles b = some (.ri p) ∨ roles b = some (.lf p)) ∧ (h.cell b).isSome) :
    Abides host scope roles (Hivex.unlinkChild node blocks)
      (fun _ roles' h' => roles' = roles ∧ ∀ b, roles b ≠ some (.lf p) → h'.cell b = h.cell b) h := by
  induction blocks with
  | nil => exact kept.fail .ENOTSUP
  | cons b rest ih =>
      obtain ⟨role, alive⟩ := each b (by simp)
      obtain ⟨l, found⟩ := Option.isSome_iff_exists.mp alive
      have bounds := kept.sound.cell_bounds found
      have later := ih fun x member => each x (List.mem_cons_of_mem b member)
      unfold Hivex.unlinkChild
      apply Runs.known (rdBytes_cell (i := 4) (n := 2) kept.sound found (by omega))
      split
      · next isLf =>
        have isList : roles b = some (.lf p) := by
          apply role.resolve_left
          intro isRi
          have fits : RiTyped roles p l := kept.cells _ _ _ isRi found
          have id : l.bytes 4 2 = Ri.id := fits.id
          rw [id] at isLf
          exact absurd isLf (by decide)
        have fits : LfTyped roles p l := kept.cells _ _ _ isList found
        have room := fits.len
        apply Runs.known (rd16_cell (i := Lf.nrKeys) kept.sound found (by simp only [Lf.nrKeys]; omega))
        have inside : ∀ j ∈ List.range (l.get16 Lf.nrKeys), 8 + 8 * j + 8 ≤ l.len := by
          intro j member
          have before := List.mem_range.mp member
          omega
        rcases findKey_cell kept.sound found low small _ inside with ⟨j, member, read, isNode⟩ | ⟨read, -⟩
        · apply Runs.known read
          have behind := (kept.bounds b _ isList).1
          unfold Runs
          apply wp_header (Spares.removeKey (by omega)).header
          apply wp_mono (kept.sound.removeKey found room (List.mem_range.mp member) isNode)
          · rintro _ g ⟨m, wrote, dropped⟩ header
            refine ⟨roles, dropped.kept kept isList found wrote, Moves.one wrote.keeps header isList wrote.others (Or.inl (allowed b)) ?_ (by simp), rfl, ?_⟩
            · left
              rw [wrote.here, found]
              rfl
            · intro x notList
              apply wrote.others
              rintro rfl
              exact notList isList
          · exact fun _ _ stopped => stopped
        · apply Runs.known read
          exact later
      · exact later

end Unlinking

section Deleting
variable {host : Host} {h : Hive} {roles : Roles} {node n p : Nat} {up : Option Nat}

-- A key is not below one of its children.
theorem Typed.parent_apart (typed : Typed h roles) (tagged : roles node = some (.nk (some p))) : ¬Under roles node p := by
  intro under
  obtain ⟨rank, above⟩ := typed.acyclic
  have below : ∀ n, Under roles node n → rank node ≤ rank n := by
    intro n under
    induction under with
    | refl => exact Nat.le_refl _
    | tail _ isParent ih => exact ih.trans (above _ _ isParent).le
  have first := above node p tagged
  have second := below p under
  omega

theorem hivexNodeParent_tagged (typed : Typed h roles) (tagged : roles node = some (.nk up)) (alive : (h.cell node).isSome) :
    Ends (hivexNodeParent node h.view) (fun p => up = some p ∧ (h.cell p).isSome) Coded := by
  obtain ⟨c, found⟩ := Option.isSome_iff_exists.mp alive
  apply (hivexNodeParent_typed typed tagged found).mono
  · rintro p ⟨word, there, same⟩
    cases up with
    | some q => exact ⟨congrArg some (same q rfl).symm, there⟩
    | none =>
        obtain ⟨d, here⟩ := Option.isSome_iff_exists.mp there
        rw [word] at here
        rcases (typed.nk tagged found).top rfl with null | isVoid
        · rw [(typed.null_gone null).1] at here
          cases here
        · exact (typed.cells _ _ _ isVoid here).elim
  · exact fun _ stopped => stopped

theorem hivexRoot_ends : Ends (hivexRoot h.view) (fun _ => True) Coded := by
  unfold hivexRoot
  apply Ends.known (isValidBlock_view h.rootoffs)
  split
  · trivial
  · exact coded _

/-- `hivex_node_delete_child`. -/
theorem Kept.deletesChild (kept : Kept h roles) (handle : IsHandle roles node) :
    Abides host (deleteScope roles node) roles (Hivex.hivexNodeDeleteChild host node)
      (fun _ roles' _ => roles' = roles ∧ ∃ p, roles node = some (.nk (some p))) h := by
  unfold Hivex.hivexNodeDeleteChild
  apply Runs.get
  rw [kept.writable]
  apply kept.query (requireBlock_handle kept.toTyped handle)
  rintro _ ⟨⟨up, tagged⟩, alive⟩
  apply kept.query (zeroOnError_ends hivexRoot_ends)
  intro root _
  apply Runs.ite
  · exact fun _ => kept.leaves .EINVAL
  intro _
  apply kept.query (hivexNodeParent_tagged kept.toTyped tagged alive)
  rintro p ⟨rfl, parentAlive⟩
  obtain ⟨g, isNk⟩ := kept.parents node p tagged
  have lists : ∀ b, (deleteScope roles node).writes b (.lf p) := fun b => ⟨p, tagged, Or.inr (Or.inl rfl)⟩
  have counts : (deleteScope roles node).writes p (.nk g) := ⟨p, tagged, Or.inl rfl⟩
  have visited : Abides host (deleteScope roles node) roles (hivexVisitNode id host deleteVisitor false node)
      (fun _ roles' _ => roles' = roles) h := by
    unfold hivexVisitNode
    apply Runs.get
    apply (kept.visits (fun _ under => under.admits tagged) _ node h.bitmap h ⟨⟨_, tagged⟩, Relation.ReflTransGen.refl, alive⟩
      kept (Moves.refl _ roles h) (unvisited_few _ h.bitmap)).bind
    rintro _ roles' h' kept' - ⟨same, -⟩
    exact kept'.done _ same
  apply visited.bind
  rintro _ roles' h₁ kept₁ moves₁ rfl
  have notFreed : ¬(deleteScope roles' node).frees p (.nk g) := by
    rintro ⟨_, -, isSk | ⟨n, under, owned⟩⟩
    · cases isSk
    · cases owned
      exact kept.toTyped.parent_apart tagged under
  have parentAlive₁ := (moves₁.alive kept.toTyped isNk notFreed).trans parentAlive
  obtain ⟨c, found₁⟩ := Option.isSome_iff_exists.mp parentAlive₁
  apply kept₁.query (getChildren_typed kept₁.toTyped isNk found₁ true)
  rintro ⟨children, blocks⟩ read
  have each : ∀ b ∈ blocks, (roles' b = some (.ri p) ∨ roles' b = some (.lf p)) ∧ (h₁.cell b).isSome := by
    rcases read with ⟨-, isEmpty⟩ | read
    · cases isEmpty
      simp
    · exact fun b member => read.each member
  obtain ⟨d, found⟩ := Option.isSome_iff_exists.mp alive
  have bounds := kept.sound.cell_bounds found
  have small := kept.small
  apply (kept₁.unlinksChild (by omega) (by omega) lists blocks each).bind
  rintro _ roles'' h₂ kept₂ - ⟨rfl, others⟩
  have found₂ := (others p (by rw [isNk]; simp)).trans found₁
  have fits := kept₂.toTyped.nk isNk found₂
  have long := fits.len
  apply Runs.known (rd32_cell (i := Nk.nrSubkeys) kept₂.sound found₂ (by simp only [Nk.nrSubkeys]; omega))
  apply (kept₂.write isNk (by simp) found₂ counts (by decide)
    (by rw [leBytes_length]; simp only [Nk.nrSubkeys]; omega) fits.countLess
    fun _ _ => word_inside fun k inside => linkFields_word (n := 4) (by decide) (by decide) inside).mono
  exact fun _ _ _ _ _ ⟨same, _⟩ => ⟨same, p, tagged⟩

end Deleting

end Hivex
