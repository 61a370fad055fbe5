import Hivex.HiveValues
import Hivex.HiveAgreement

/-! Setting one value. The call rewrites the whole list of values: it replaces the last
entry whose key matches, while the lookup returns the first one. -/
namespace Hivex

open ByteMemory Commands

section Matching
variable {α : Type} {p : α → Bool} {x : α}

/-- Put `x` in the place of the first element that `p` accepts, else at the end. -/
def replaceFirst (p : α → Bool) (x : α) : List α → List α
  | [] => [x]
  | y :: ys => if p y then x :: ys else y :: replaceFirst p x ys

def lastIndex (p : α → Bool) (xs : List α) : Option Nat :=
  (List.range xs.length).reverse.find? fun i => (xs[i]?).any p

theorem replaceFirst_none {xs : List α} (none : ∀ y ∈ xs, p y = false) :
    replaceFirst p x xs = xs ++ [x] := by
  induction xs with
  | nil => rfl
  | cons y ys ih =>
      rw [replaceFirst, none y (by simp), ih fun z member => none z (by simp [member])]
      rfl

theorem replaceFirst_split {front back : List α} {a : α} (none : ∀ y ∈ front, p y = false)
    (found : p a = true) : replaceFirst p x (front ++ a :: back) = front ++ x :: back := by
  induction front with
  | nil => simp [replaceFirst, found]
  | cons y ys ih =>
      rw [List.cons_append, replaceFirst, none y (by simp), ih fun z member => none z (by simp [member])]
      rfl

theorem lastIndex_concat (p : α → Bool) (xs : List α) (y : α) :
    lastIndex p (xs ++ [y]) = if p y then some xs.length else lastIndex p xs := by
  have earlier : ∀ i ∈ (List.range xs.length).reverse,
      ((xs ++ [y])[i]?).any p = (xs[i]?).any p := by
    intro i member
    rw [List.mem_reverse, List.mem_range] at member
    rw [List.getElem?_append_left member]
  unfold lastIndex
  rw [List.length_append, List.length_singleton, List.range_succ, List.reverse_append,
    List.reverse_singleton, List.singleton_append, List.find?_cons]
  have last : ((xs ++ [y])[xs.length]?).any p = p y := by simp
  rw [last]
  cases p y with
  | true => rfl
  | false =>
      simp only [Bool.false_eq_true, if_false]
      exact List.find?_congr earlier

theorem lastIndex_none {xs : List α} (none : ∀ y ∈ xs, p y = false) : lastIndex p xs = .none := by
  induction xs using List.reverseRecOn with
  | nil => rfl
  | append_singleton ys y ih =>
      rw [lastIndex_concat, none y (by simp), ih fun z member => none z (by simp [member])]
      rfl

theorem lastIndex_split {front back : List α} {b : α} (none : ∀ y ∈ back, p y = false)
    (found : p b = true) : lastIndex p (front ++ b :: back) = some front.length := by
  induction back using List.reverseRecOn with
  | nil => simp [lastIndex_concat, found]
  | append_singleton ys y ih =>
      rw [← List.cons_append, ← List.append_assoc, lastIndex_concat, none y (by simp),
        ih fun z member => none z (by simp [member])]
      rfl

-- The first element that `p` accepts, and the last.
theorem split_first {xs : List α} (some_found : ∃ y ∈ xs, p y = true) :
    ∃ front a back, xs = front ++ a :: back ∧ (∀ y ∈ front, p y = false) ∧ p a = true := by
  induction xs with
  | nil =>
      obtain ⟨y, member, -⟩ := some_found
      cases member
  | cons y ys ih =>
      cases here : p y with
      | true => exact ⟨[], y, ys, rfl, by simp, here⟩
      | false =>
          obtain ⟨z, member, found⟩ := some_found
          have later : z ∈ ys := by
            rcases List.mem_cons.mp member with rfl | later
            · rw [here] at found
              cases found
            · exact later
          obtain ⟨front, a, back, rfl, none, isMatch⟩ := ih ⟨z, later, found⟩
          refine ⟨y :: front, a, back, rfl, fun w inFront => ?_, isMatch⟩
          rcases List.mem_cons.mp inFront with rfl | inside
          · exact here
          · exact none w inside

theorem split_last {xs : List α} (some_found : ∃ y ∈ xs, p y = true) :
    ∃ front b back, xs = front ++ b :: back ∧ (∀ y ∈ back, p y = false) ∧ p b = true := by
  obtain ⟨y, member, found⟩ := some_found
  obtain ⟨front, b, back, same, none, isMatch⟩ := @split_first α p xs.reverse
    ⟨y, List.mem_reverse.mpr member, found⟩
  refine ⟨back.reverse, b, front.reverse, ?_, fun z inside => none z (List.mem_reverse.mp inside), isMatch⟩
  have turned := congrArg List.reverse same
  simpa using turned

end Matching

/-- The entry has the key of `val`, in any case. -/
def Matches (val old : SetValue) : Bool := strcasecmp old.key val.key = 0

/-- The first and the last entry that match are one entry, or both are `val` already. -/
def SingleMatch (val : SetValue) (prev : List SetValue) : Prop :=
  ∀ front a middle b back, prev = front ++ a :: (middle ++ b :: back) →
    (∀ old ∈ front, Matches val old = false) → (∀ old ∈ back, Matches val old = false) →
    Matches val a = true → Matches val b = true → a = val ∧ b = val

section Editing
variable {val : SetValue} {prev : List SetValue}

theorem editValues_eq (val : SetValue) (prev : List SetValue) :
    editValues val prev = match lastIndex (Matches val) prev with
      | some i => prev.set i val
      | none => prev ++ [val] := rfl

theorem editValues_none (none : ∀ old ∈ prev, Matches val old = false) :
    editValues val prev = prev ++ [val] := by
  rw [editValues_eq, lastIndex_none none]

theorem editValues_split {front back : List SetValue} {b : SetValue}
    (none : ∀ old ∈ back, Matches val old = false) (found : Matches val b = true) :
    editValues val (front ++ b :: back) = front ++ val :: back := by
  rw [editValues_eq, lastIndex_split none found]
  simp

theorem editValues_length : (editValues val prev).length =
    if ∃ old ∈ prev, Matches val old = true then prev.length else prev.length + 1 := by
  split
  · next some_found =>
    obtain ⟨front, b, back, rfl, none, found⟩ := split_last some_found
    rw [editValues_split none found]
    simp
  · next no_match =>
    rw [editValues_none fun old member => by simpa using fun found => no_match ⟨old, member, found⟩]
    simp

theorem editValues_mem : ∀ e ∈ editValues val prev, e = val ∨ e ∈ prev := by
  intro e member
  rw [editValues_eq] at member
  split at member
  · exact (List.mem_or_eq_of_mem_set member).symm
  · rcases List.mem_append.mp member with old | new
    · exact Or.inr old
    · exact Or.inl (List.mem_singleton.mp new)

/-- The last match is as good as the first exactly if the list has a single match. -/
theorem singleMatch_iff : editValues val prev = replaceFirst (Matches val) val prev ↔ SingleMatch val prev := by
  constructor
  · rintro same front a middle b back rfl noFront noBack first last
    rw [replaceFirst_split noFront first, ← List.cons_append, ← List.append_assoc,
      editValues_split noBack last, List.append_assoc, List.cons_append] at same
    have rest := List.append_cancel_left same
    obtain ⟨isVal, behind⟩ := List.cons.inj rest
    exact ⟨isVal, (List.cons.inj (List.append_cancel_left behind)).1.symm⟩
  · intro single
    by_cases some_found : ∃ old ∈ prev, Matches val old = true
    · obtain ⟨front, a, rest, rfl, noFront, first⟩ := split_first some_found
      rw [replaceFirst_split noFront first]
      by_cases later : ∃ old ∈ rest, Matches val old = true
      · obtain ⟨middle, b, back, rfl, noBack, last⟩ := split_last later
        obtain ⟨rfl, rfl⟩ := single front a middle b back rfl noFront noBack first last
        rw [← List.cons_append, ← List.append_assoc, editValues_split noBack last]
      · exact editValues_split (fun old member => by
          simpa using fun found => later ⟨old, member, found⟩) first
    · have none : ∀ old ∈ prev, Matches val old = false := fun old member => by
        simpa using fun found => some_found ⟨old, member, found⟩
      rw [editValues_none none, replaceFirst_none none]

end Editing

/-- The values of a node as the readers return them. -/
def readEntries (node : Nat) : Reader (List SetValue) := do
  let values ← hivexNodeValues node
  values.mapM readValue

/-- An element as it reads after it was stored. -/
def SetValue.stored (val : SetValue) : SetValue := ⟨cstr val.storedKey, val.t % 2 ^ 32, val.value⟩

/-- The fields of the element fit the fields of the record. -/
def SetValue.Fits (val : SetValue) : Prop := val.key.strlen < 2 ^ 16 ∧ val.t < 2 ^ 32

/-- The lookup finds the new value, and the list is the old one with the first entry that
matches replaced, or with the new value at the end. -/
structure SetsOne (h g : Hive) (node : Nat) (val : SetValue) : Prop where
  found : ∃ v, hivexNodeGetValue node val.key g.view = .ok v ∧ v ≠ 0 ∧
    hivexValueValue v g.view = .ok (val.t, val.value)
  list : ∀ prev, readEntries node h.view = .ok prev →
    readEntries node g.view = .ok (replaceFirst (Matches val) val prev)

/-- The edited list can be read and the first match is as good as the last. -/
def Replaceable (val : SetValue) (prev : List SetValue) : Prop :=
  (prev.length < hiveMaxValues ∨ ∃ old ∈ prev, Matches val old = true) ∧
    val.key.strlen < 2 ^ 16 ∧ SingleMatch val prev

/-- No old value keeps its data in the block of the node. -/
def DataApart (h : Hive) (node : Nat) : Prop :=
  ∀ values, hivexNodeValues node h.view = .ok values → ∀ v ∈ values, ∀ c, h.cell v = some c →
    c.get32 Vk.dataLen < 2 ^ 31 → c.get32 Vk.dataOffset + 0x1000 ≠ node

section Entries
variable {h g : Hive} {host : Host} {node v : Nat} {val : SetValue} {prev array : List SetValue}

theorem cstr_bytes (s : CString) : cstr s.bytes = s := by
  cases s with
  | mk bytes nul_free =>
      simp only [cstr, CString.mk.injEq]
      rw [List.takeWhile_eq_self_iff]
      intro b member
      rw [decide_eq_true_eq]
      rintro rfl
      exact nul_free member

theorem stored_fits (fits : val.Fits) : val.stored = val := by
  obtain ⟨short, type⟩ := fits
  cases val with
  | mk key t value =>
      have stored : (⟨key, t, value⟩ : SetValue).storedKey = key.bytes := (storedKey_iff _).mpr short
      rw [SetValue.stored, stored, cstr_bytes, Nat.mod_eq_of_lt type]

theorem stored_short (val : SetValue) : val.stored.key.strlen < 2 ^ 16 := by
  have cut : val.stored.key.strlen ≤ val.storedKey.length := (List.takeWhile_sublist _).length_le
  have length : val.storedKey.length ≤ val.key.strlen % 2 ^ 16 := by
    unfold SetValue.storedKey
    rw [List.length_take]
    exact Nat.min_le_left _ _
  omega

theorem strcasecmpBytes_self (bytes : List UInt8) : strcasecmpBytes bytes bytes = 0 := by
  induction bytes with
  | nil => rfl
  | cons b bytes ih => simpa [strcasecmpBytes] using ih

theorem Matches.self (val : SetValue) : Matches val val = true :=
  decide_eq_true (strcasecmpBytes_self val.key.bytes)

theorem rdLe_small (n b i : Nat) (v : View) : Ends (rdLe n b i v) (· < 256 ^ n) fun _ => True := by
  unfold rdLe
  split
  · exact getLe_lt _ _ _
  · trivial

theorem hivexValueKey_short (v : Nat) (view : View) :
    Ends (hivexValueKey v view) (fun bytes => bytes.length < 2 ^ 16) fun _ => True := by
  have length : Ends (hivexValueKeyLen v view) (· < 2 ^ 16) fun _ => True := by
    refine Ends.after fun _ _ => (rdLe_small 2 v Vk.nameLen view).seq fun len small => ?_
    refine Ends.after fun segLen _ => ?_
    split
    · trivial
    · exact small
  refine Ends.after fun _ _ => length.seq fun len small => ?_
  unfold rdBytes
  split
  · simpa using small
  · trivial

theorem hivexValueValue_type (v : Nat) (view : View) :
    Ends (hivexValueValue v view) (fun result => result.1 < 2 ^ 32) fun _ => True := by
  refine Ends.after fun _ _ => (rdLe_small 4 v Vk.dataType view).seq fun t small => ?_
  refine Ends.after fun len _ => ?_
  dsimp only
  split
  · trivial
  split
  · trivial
  split
  · exact Ends.after fun _ _ => small
  · refine Ends.after fun offset _ => Ends.after fun valid _ => ?_
    split
    · exact Ends.after fun _ _ => Ends.after fun _ _ => small
    · trivial

-- What is read fits the fields it was read from.
theorem readValue_fits (v : Nat) (view : View) :
    Ends (readValue v view) SetValue.Fits fun _ => True := by
  refine (hivexValueValue_type v view).seq fun result type => ?_
  refine (hivexValueKey_short v view).seq fun bytes short => ⟨?_, type⟩
  have cut : (cstr bytes).strlen ≤ bytes.length := (List.takeWhile_sublist _).length_le
  exact cut.trans_lt short

theorem Reads.entry {vk : Nat} (reads : Reads h val vk) : readValue vk h.view = .ok val.stored := by
  simp only [readValue, bind_query, reads.2, ok_bind, reads.1, pure_query]
  rfl

theorem Written.entries (written : Written h node array) (few : array.length ≤ hiveMaxValues) :
    readEntries node h.view = .ok (array.map SetValue.stored) := by
  obtain ⟨vks, reads, values⟩ := written
  rw [if_pos few] at values
  rw [readEntries, bind_query, values, ok_bind]
  clear values few
  induction reads with
  | nil => rfl
  | cons first rest ih =>
      rw [mapM_cons_query, first.entry, ih]
      rfl

theorem Written.unread (written : Written h node array) (many : ¬array.length ≤ hiveMaxValues) :
    readEntries node h.view = .error (.errno .ERANGE) := by
  obtain ⟨vks, reads, values⟩ := written
  rw [if_neg many] at values
  rw [readEntries, bind_query, values, error_bind]

theorem getValues_few (node : Nat) (view : View) :
    Ends (getValues node view) (fun result => result.1.length ≤ hiveMaxValues) fun _ => True := by
  refine Ends.after fun _ _ => Ends.after fun count _ => ?_
  dsimp only
  split
  · exact Nat.zero_le _
  split
  · trivial
  next few =>
  refine Ends.after fun offset _ => Ends.after fun valid _ => ?_
  split
  swap
  · trivial
  refine Ends.after fun len _ => ?_
  split
  · trivial
  have counted : Ends (((List.range count).mapM (getValueOffset (offset + 0x1000))) view)
      (List.Forall₂ (fun _ _ => True) (List.range count)) fun _ => True :=
    Ends.mapM _ _ _ _ fun i _ => by
      cases getValueOffset (offset + 0x1000) i view <;> trivial
  refine counted.seq fun values related => ?_
  have length := related.length_eq
  rw [List.length_range] at length
  show values.length ≤ hiveMaxValues
  rw [← length]
  exact Nat.not_lt.mp few

theorem readEntries_fits (node : Nat) (view : View) : Ends (readEntries node view)
    (fun prev => prev.length ≤ hiveMaxValues ∧ ∀ old ∈ prev, old.Fits) fun _ => True := by
  have listed : Ends (hivexNodeValues node view) (·.length ≤ hiveMaxValues) fun _ => True :=
    (getValues_few node view).seq fun result few => few
  refine listed.seq fun values few => ?_
  have same : Ends ((values.mapM readValue) view) (List.Forall₂ (fun _ _ => True) values)
      fun _ => True := Ends.mapM _ _ _ _ fun v _ => by
    cases readValue v view <;> trivial
  refine (same.and (Ends.mapM_all readValue view values SetValue.Fits fun v _ =>
    readValue_fits v view)).mono ?_ fun _ _ => trivial
  rintro prev ⟨related, each⟩
  exact ⟨related.length_eq ▸ few, each⟩

-- The lookup returns the first entry that matches.
theorem firstNamed_found {front back : List SetValue} {vks : List Nat} {wanted : CString}
    (reads : List.Forall₂ (Reads h) (front ++ val :: back) vks)
    (noFront : ∀ old ∈ front, strcasecmp old.stored.key wanted ≠ 0)
    (found : strcasecmp val.stored.key wanted = 0) :
    ∃ vk, firstNamed hivexValueKey wanted vks h.view = .ok vk ∧ Reads h val vk := by
  induction front generalizing vks with
  | nil =>
      cases reads with
      | cons first rest =>
          refine ⟨_, ?_, first⟩
          rw [firstNamed, bind_query, first.1, ok_bind]
          exact congrFun (if_pos found) _
  | cons old front ih =>
      cases reads with
      | cons first rest =>
          obtain ⟨vk, result, same⟩ := ih rest fun other member => noFront other (by simp [member])
          refine ⟨vk, ?_, same⟩
          rw [firstNamed, bind_query, first.1, ok_bind]
          exact (congrFun (if_neg (noFront old (by simp))) _).trans result

end Entries

section Calls
variable {h g : Hive} {host : Host} {node v : Nat} {val : SetValue} {prev : List SetValue}
  {c : Cell}

-- A value whose key can be read has a whole record.
theorem readValue_record (sound : Sound h) (read : readValue v h.view = .ok val) :
    ∃ d, h.cell v = some d ∧ d.id = Vk.id ∧ 16 ≤ d.len := by
  obtain ⟨result, _, rest⟩ := bind_ok_iff.mp read
  obtain ⟨bytes, key, _⟩ := bind_ok_iff.mp rest
  obtain ⟨_, _, keyed⟩ := bind_ok_iff.mp key
  obtain ⟨len, length, _⟩ := bind_ok_iff.mp keyed
  cases found : h.cell v with
  | none => simp only [hivexValueKeyLen, bind_query, requireBlock_none found, error_bind, reduceCtorEq] at length
  | some d =>
      refine ⟨d, rfl, ?_⟩
      have ends : Ends (hivexValueKeyLen v h.view) (fun _ => d.id = Vk.id ∧ 16 ≤ d.len) fun _ => True := by
        unfold hivexValueKeyLen
        rw [bind_query, requireBlock_cell sound found]
        split
        · next isVk =>
          rw [ok_bind]
          refine Ends.after fun nameLen _ => Ends.known (blockLen_cell sound found) ?_
          split
          · trivial
          · next fits =>
            simp only [Vk.sizeof] at fits
            exact ⟨isVk, by omega⟩
        · trivial
      rw [length] at ends
      exact ends

-- The first entry of a value list inside the node would be its id, which is not aligned.
theorem getValues_apart (sound : Sound h) (found : h.cell node = some c) (whole : 80 ≤ c.len) :
    Ends (getValues node h.view) (fun result => node ∉ result.2) fun _ => True := by
  unfold getValues
  rw [bind_query, requireBlock_cell sound found]
  split
  swap
  · trivial
  next isNk =>
  rw [ok_bind]
  refine Ends.after fun count _ => ?_
  dsimp only
  split
  · exact List.not_mem_nil
  next some_values =>
  split
  · trivial
  refine Ends.after fun offset _ => Ends.after fun valid _ => ?_
  split
  swap
  · trivial
  refine Ends.after fun len _ => ?_
  split
  · trivial
  by_cases inside : offset + 0x1000 = node
  · have misaligned : ∀ i ∈ List.range count,
        Ends (getValueOffset (offset + 0x1000) i h.view) (fun _ => i ≠ 0) fun _ => True := by
      intro i _
      rcases Nat.eq_zero_or_pos i with rfl | later
      · have word := rd32_cell (i := ValueList.offset 0) sound found (by
          simp only [ValueList.offset]
          omega)
        have first : c.byte 4 = 0x6e := by
          have bytes : [c.byte 4, c.byte 5] = Nk.id := isNk
          exact (List.cons.inj bytes).1
        have odd : c.get32 4 % 4 = 2 := by
          rw [Cell.get32, Cell.get, getLe, first]
          simp only [UInt8.toNat_ofNat]
          omega
        have invalid : h.valid (c.get32 (ValueList.offset 0) + 0x1000) = false := by
          simp only [Hive.valid, decide_eq_false_iff_not]
          rintro ⟨aligned, -⟩
          have same : c.get32 (ValueList.offset 0) = c.get32 4 := rfl
          omega
        rw [inside]
        simp only [getValueOffset, bind_query, word, ok_bind, isValidBlock_view, invalid]
        trivial
      · exact Ends.after fun _ _ => Ends.after fun valid _ => by
          split
          · exact Nat.pos_iff_ne_zero.mp later
          · trivial
    refine (Ends.mapM _ _ _ _ misaligned).seq fun values related => ?_
    exfalso
    have start : 0 < (List.range count).length := by
      rw [List.length_range]
      exact Nat.pos_of_ne_zero some_values
    have here := related.get start (related.length_eq ▸ start)
    simp at here
  · exact Ends.after fun values _ => by simpa using fun same => inside same.symm

theorem DataApart.detached (apart : DataApart h node) (sound : Sound h) (found : h.cell node = some c)
    (whole : 80 ≤ c.len) (read : readEntries node h.view = .ok prev) : Detached h node := by
  refine ⟨⟨c, found, whole⟩, fun values blocks got => ?_⟩
  have listed : hivexNodeValues node h.view = .ok values := by
    rw [hivexNodeValues, bind_query, got]
    rfl
  have nk : c.id = Nk.id := by
    have checked := (getValues_of_values listed).1
    by_contra other
    rw [requireBlock_cell sound found, if_neg other] at checked
    cases checked
  rw [readEntries, bind_query, listed, ok_bind] at read
  have records : ∀ v ∈ values, ∃ d, h.cell v = some d ∧ d.id = Vk.id ∧ 16 ≤ d.len := by
    clear got listed
    induction values generalizing prev with
    | nil => simp
    | cons first rest ih =>
        rw [mapM_cons_query] at read
        obtain ⟨entry, head, later⟩ := bind_ok_iff.mp read
        obtain ⟨entries, tail, _⟩ := bind_ok_iff.mp later
        intro v member
        rcases List.mem_cons.mp member with rfl | behind
        · exact readValue_record sound head
        · exact ih tail v behind
  refine ⟨fun v member d there => ?_, fun inside => ?_⟩
  · obtain ⟨d', there', _, long⟩ := records v member
    rw [there] at there'
    cases there'
    exact long
  · rcases List.mem_append.mp inside with isList | freed
    · have notList := getValues_apart sound found whole
      rw [got] at notList
      exact notList isList
    · obtain ⟨v, member, release⟩ := List.mem_flatMap.mp freed
      obtain ⟨d, there, isVk, _⟩ := records v member
      have notSelf : node ≠ v := by
        rintro rfl
        rw [found] at there
        cases there
        rw [nk] at isVk
        cases isVk
      rw [releases_cell there] at release
      split at release
      · exact notSelf (List.mem_singleton.mp release)
      · next outside =>
        rcases List.mem_cons.mp release with data | self
        · exact apart values listed v member d there (Nat.not_le.mp outside) data.symm
        · exact notSelf (List.mem_singleton.mp self)

theorem hivexNodeSetValue_run (run : hivexNodeSetValue host node val h = .ok () g) :
    ∃ prev, readEntries node h.view = .ok prev ∧
      hivexNodeSetValues host node (editValues val prev) h = .ok () g := by
  unfold hivexNodeSetValue at run
  cases listed : hivexNodeValues node h.view with
  | error reason =>
      have stops : Hivex.read (hivexNodeValues node) h = .error reason h := by simp [read, look, listed]
      have same := (run_error stops).symm.trans run
      cases same
  | ok values =>
      have passes : Hivex.read (hivexNodeValues node) h = .ok values h := by simp [read, look, listed]
      have rest := (run_ok passes).symm.trans run
      cases each : (values.mapM readValue) h.view with
      | error reason =>
          have stops : Hivex.read (values.mapM readValue) h = .error reason h := by simp [read, look, each]
          have same := (run_error stops).symm.trans rest
          cases same
      | ok prev =>
          have passes : Hivex.read (values.mapM readValue) h = .ok prev h := by simp [read, look, each]
          refine ⟨prev, ?_, (run_ok passes).symm.trans rest⟩
          rw [readEntries, bind_query, listed, ok_bind, each]

theorem readEntries_sets {k : Hive} (written : Written k node (editValues val prev))
    (fits : ∀ old ∈ prev, old.Fits) (type : val.t < 2 ^ 32)
    (few : (editValues val prev).length ≤ hiveMaxValues) (short : val.key.strlen < 2 ^ 16) :
    readEntries node k.view = .ok (editValues val prev) := by
  rw [written.entries few]
  congr 1
  conv_rhs => rw [← List.map_id (editValues val prev)]
  apply List.map_congr_left
  intro e member
  apply stored_fits
  rcases editValues_mem e member with rfl | old
  · exact ⟨short, type⟩
  · exact fits e old

-- The new value is the first one in its list that matches.
theorem replaceFirst_first (val : SetValue) (prev : List SetValue) :
    ∃ front back, replaceFirst (Matches val) val prev = front ++ val :: back ∧
      ∀ old ∈ front, old ∈ prev ∧ Matches val old = false := by
  by_cases some_found : ∃ old ∈ prev, Matches val old = true
  · obtain ⟨front, a, back, rfl, none, first⟩ := split_first some_found
    exact ⟨front, back, replaceFirst_split none first, fun old member =>
      ⟨List.mem_append_left _ member, none old member⟩⟩
  · have none : ∀ old ∈ prev, Matches val old = false := fun old member => by
      simpa using fun found => some_found ⟨old, member, found⟩
    exact ⟨prev, [], replaceFirst_none none, fun old member => ⟨member, none old member⟩⟩

theorem Reads.low {vk : Nat} (reads : Reads h val vk) : 0x1000 ≤ vk := by
  obtain ⟨_, checked, _⟩ := bind_ok_iff.mp reads.1
  exact requireBlock_low checked

theorem Replaceable.sets (replaceable : Replaceable val prev)
    (written : Written g node (editValues val prev)) (read : readEntries node h.view = .ok prev)
    (type : val.t < 2 ^ 32) : SetsOne h g node val := by
  have ends := readEntries_fits node h.view
  rw [read] at ends
  obtain ⟨limit, fits⟩ := ends
  obtain ⟨room, short, single⟩ := replaceable
  have few : (editValues val prev).length ≤ hiveMaxValues := by
    rw [editValues_length]
    split
    · exact limit
    · next no_match => exact room.resolve_right no_match
  have entries := readEntries_sets written fits type few short
  have edited := singleMatch_iff.mpr single
  constructor
  · obtain ⟨front, back, first, none⟩ := replaceFirst_first val prev
    obtain ⟨vks, reads, values⟩ := written
    rw [if_pos few] at values
    rw [edited, first] at reads
    have noFront : ∀ old ∈ front, strcasecmp old.stored.key val.key ≠ 0 := by
      intro old member
      rw [stored_fits (fits old (none old member).1)]
      exact of_decide_eq_false (none old member).2
    have own : strcasecmp val.stored.key val.key = 0 := by
      rw [stored_fits ⟨short, type⟩]
      exact of_decide_eq_true (Matches.self val)
    obtain ⟨vk, search, same⟩ := firstNamed_found reads noFront own
    have result : hivexNodeGetValue node val.key g.view = .ok vk := by
      unfold hivexNodeGetValue zeroOnError
      rw [bind_query, values, ok_bind, search]
    have low := same.low
    refine ⟨vk, result, by omega, ?_⟩
    rw [same.2, Nat.mod_eq_of_lt type]
  · intro prev' read'
    rw [read] at read'
    obtain rfl := Except.ok.inj read'
    rw [entries, edited]

theorem SetsOne.replaceable (sets : SetsOne h g node val)
    (written : Written g node (editValues val prev)) (read : readEntries node h.view = .ok prev)
    (type : val.t < 2 ^ 32) : Replaceable val prev := by
  have ends := readEntries_fits node h.view
  rw [read] at ends
  obtain ⟨limit, fits⟩ := ends
  have listed := sets.list prev read
  have few : (editValues val prev).length ≤ hiveMaxValues := by
    by_contra many
    rw [written.unread many] at listed
    cases listed
  have readable := readEntries_fits node g.view
  rw [listed] at readable
  have isStored : val ∈ replaceFirst (Matches val) val prev := by
    by_cases some_found : ∃ old ∈ prev, Matches val old = true
    · obtain ⟨front, a, back, rfl, none, first⟩ := split_first some_found
      rw [replaceFirst_split none first]
      simp
    · rw [replaceFirst_none fun old member => by simpa using fun found => some_found ⟨old, member, found⟩]
      simp
  have short := (readable.2 val isStored).1
  refine ⟨?_, short, ?_⟩
  · rw [editValues_length] at few
    split at few
    · next some_found => exact Or.inr some_found
    · exact Or.inl few
  · rw [readEntries_sets written fits type few short] at listed
    exact singleMatch_iff.mp (Except.ok.inj listed)

end Calls

/-- A node whose two values have keys that differ in case only. -/
theorem nulFree_upper : (0 : UInt8) ∉ ([0x41] : List UInt8) := by decide

def twoCases : List SetValue := [⟨⟨[0x61], nulFree_a⟩, 3, [1]⟩, ⟨⟨[0x41], nulFree_upper⟩, 3, [2]⟩]

def newCase : SetValue := ⟨⟨[0x61], nulFree_a⟩, 3, [9]⟩

def setOnce (h : Hive) : Option Hive :=
  match hivexNodeSetValue ampleHost 0x1020 newCase h with
  | .error _ _ => none
  | .ok _ g => some g

/-- What the lookup returns after the value was set. -/
def setAndGet (h : Hive) : Option (Hive × Hive × Nat × List UInt8) :=
  match hivexNodeSetValues ampleHost 0x1020 twoCases h with
  | .error _ _ => none
  | .ok _ g =>
    match hivexNodeSetValue ampleHost 0x1020 newCase g with
    | .error _ _ => none
    | .ok _ k =>
      match (hivexNodeGetValue 0x1020 newCase.key >>= hivexValueValue) k.view with
      | .error _ => none
      | .ok result => some (g, k, result)

end Hivex
