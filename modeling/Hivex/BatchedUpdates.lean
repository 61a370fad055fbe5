import Mathlib.Data.List.Nodup
import Mathlib.Data.List.Induction

/-! Updates of a list of entries with keys. A batch drops the old entries of every key it
mentions and appends its own; a replay makes a batch of each update. -/
namespace BatchedUpdates

inductive Update (ε κ : Type) where
  | set (entry : ε)
  | erase (key : κ)

section Updating
variable {ε κ β : Type} [DecidableEq κ] (keyOf : ε → κ)

def Update.key : Update ε κ → κ
  | .set entry => keyOf entry
  | .erase key => key

def sets : List (Update ε κ) → List ε
  | [] => []
  | .set entry :: rest => entry :: sets rest
  | .erase _ :: rest => sets rest

def batch (old : List ε) (updates : List (Update ε κ)) : List ε :=
  (old.filter fun entry => keyOf entry ∉ updates.map (Update.key keyOf)) ++ sets updates

def replay (old : List ε) (updates : List (Update ε κ)) : List ε :=
  updates.foldl (fun old update => batch keyOf old [update]) old

/-- The entries of a key. -/
def entriesAt (key : κ) (entries : List ε) : List ε := entries.filter fun entry => keyOf entry = key

/-- The updates of a key. -/
def updatesAt (key : κ) (updates : List (Update ε κ)) : List (Update ε κ) :=
  updates.filter fun update => update.key keyOf = key

/-- No key is updated again once it is set. -/
def SetLast (updates : List (Update ε κ)) : Prop :=
  updates.Pairwise fun first later => ∀ entry, first = .set entry → later.key keyOf ≠ keyOf entry

variable {keyOf} {key : κ} {old : List ε} {updates : List (Update ε κ)} {update : Update ε κ} {entry : ε}

omit [DecidableEq κ] in
theorem sets_append (front back : List (Update ε κ)) : sets (front ++ back) = sets front ++ sets back := by
  induction front with
  | nil => rfl
  | cons first front ih =>
      cases first with
      | set entry => exact congrArg (entry :: ·) ih
      | erase key => exact ih

omit [DecidableEq κ] in
theorem mem_sets : entry ∈ sets updates ↔ .set entry ∈ updates := by
  induction updates with
  | nil => simp [sets]
  | cons first rest ih => cases first <;> simp [sets, ih]

theorem entriesAt_sets : entriesAt keyOf key (sets updates) = sets (updatesAt keyOf key updates) := by
  induction updates with
  | nil => rfl
  | cons first rest ih =>
      cases first with
      | set entry =>
          by_cases same : keyOf entry = key
          · simpa [entriesAt, updatesAt, sets, Update.key, same] using ih
          · simpa [entriesAt, updatesAt, sets, Update.key, same] using ih
      | erase other =>
          by_cases same : other = key
          · simpa [entriesAt, updatesAt, sets, Update.key, same] using ih
          · simpa [entriesAt, updatesAt, sets, Update.key, same] using ih

/-- Any test that tells the keys of a batch apart leaves the batch. -/
theorem filter_eq_batch {keep : ε → Bool}
    (tells : ∀ entry, keep entry = true ↔ keyOf entry ∉ updates.map (Update.key keyOf)) :
    old.filter keep ++ sets updates = batch keyOf old updates := by
  unfold batch
  congr 1
  apply List.filter_congr
  intro entry _
  rw [Bool.eq_iff_iff, tells, decide_eq_true_iff]

theorem batch_at (key : κ) (old : List ε) (updates : List (Update ε κ)) :
    entriesAt keyOf key (batch keyOf old updates) =
      if updatesAt keyOf key updates = [] then entriesAt keyOf key old else sets (updatesAt keyOf key updates) := by
  have split : entriesAt keyOf key (batch keyOf old updates) =
      entriesAt keyOf key (old.filter fun entry => keyOf entry ∉ updates.map (Update.key keyOf)) ++
        sets (updatesAt keyOf key updates) := by
    rw [← entriesAt_sets, entriesAt, batch, List.filter_append]
    rfl
  rw [split]
  by_cases none : updatesAt keyOf key updates = []
  · have untouched : key ∉ updates.map (Update.key keyOf) := by
      intro member
      obtain ⟨update, listed, same⟩ := List.mem_map.mp member
      have found : update ∈ updatesAt keyOf key updates := by
        simp [updatesAt, listed, same]
      rw [none] at found
      cases found
    rw [if_pos none, none, sets, List.append_nil, entriesAt, List.filter_filter]
    apply List.filter_congr
    intro entry _
    by_cases same : keyOf entry = key
    · rw [same]
      simp only [untouched, not_false_eq_true, decide_true, Bool.and_true]
    · simp [same]
  · have touched : key ∈ updates.map (Update.key keyOf) := by
      obtain ⟨update, found⟩ := List.exists_mem_of_ne_nil _ none
      obtain ⟨listed, same⟩ := List.mem_filter.mp found
      exact List.mem_map.mpr ⟨update, listed, of_decide_eq_true same⟩
    have gone : entriesAt keyOf key (old.filter fun entry => keyOf entry ∉ updates.map (Update.key keyOf)) = [] := by
      apply List.filter_eq_nil_iff.mpr
      intro entry member same
      have kept := of_decide_eq_true (List.mem_filter.mp member).2
      rw [of_decide_eq_true same] at kept
      exact kept touched
    rw [if_neg none, gone, List.nil_append]

theorem updatesAt_concat : updatesAt keyOf key (updates ++ [update]) =
    if update.key keyOf = key then updatesAt keyOf key updates ++ [update] else updatesAt keyOf key updates := by
  unfold updatesAt
  rw [List.filter_append]
  by_cases same : update.key keyOf = key
  · simp [same]
  · simp [same]

/-- In a replay the last update of a key decides. -/
theorem replay_at (key : κ) (old : List ε) (updates : List (Update ε κ)) :
    entriesAt keyOf key (replay keyOf old updates) =
      match (updatesAt keyOf key updates).getLast? with
      | none => entriesAt keyOf key old
      | some last => sets [last] := by
  induction updates using List.reverseRecOn with
  | nil => rfl
  | append_singleton updates update ih =>
      have last : replay keyOf old (updates ++ [update]) = batch keyOf (replay keyOf old updates) [update] := by
        simp [replay]
      rw [last, batch_at, updatesAt_concat]
      by_cases same : update.key keyOf = key
      · have alone : updatesAt keyOf key [update] = [update] := by simp [updatesAt, same]
        rw [alone, if_neg (by simp), if_pos same, List.getLast?_concat]
      · have nothing : updatesAt keyOf key [update] = [] := by simp [updatesAt, same]
        rw [nothing, if_pos rfl, if_neg same]
        exact ih

/-- At each key only the last update may set. -/
theorem setLast_iff : SetLast keyOf updates ↔
    ∀ key front last, updatesAt keyOf key updates = front ++ [last] → sets front = [] := by
  constructor
  · intro settled key front last shape
    apply List.eq_nil_iff_forall_not_mem.mpr
    intro entry member
    have within := settled.filter fun update => update.key keyOf = key
    rw [show updates.filter (fun update => update.key keyOf = key) = front ++ [last] from shape] at within
    have apart := (List.pairwise_append.mp within).2.2 (.set entry) (mem_sets.mp member) last (by simp) entry rfl
    have keyed : ∀ update ∈ front ++ [last], update.key keyOf = key := by
      intro update listed
      rw [← shape] at listed
      exact of_decide_eq_true (List.mem_filter.mp listed).2
    have first : keyOf entry = key := keyed (.set entry) (List.mem_append_left _ (mem_sets.mp member))
    exact apart ((keyed last (by simp)).trans first.symm)
  · intro alone
    apply List.pairwise_iff_forall_sublist.mpr
    rintro first later pair entry rfl same
    have both : List.Sublist [.set entry, later] (updatesAt keyOf (keyOf entry) updates) := by
      have kept := pair.filter fun update => update.key keyOf = keyOf entry
      have pairKept : [.set entry, later].filter (fun update => update.key keyOf = keyOf entry) =
          [.set entry, later] := by
        apply List.filter_eq_self.mpr
        intro update member
        rcases List.mem_pair.mp member with rfl | rfl
        · exact decide_eq_true rfl
        · exact decide_eq_true same
      rwa [pairKept] at kept
    rcases List.eq_nil_or_concat' (updatesAt keyOf (keyOf entry) updates) with nothing | ⟨front, last, shape⟩
    · rw [nothing] at both
      cases both
    · rw [shape] at both
      obtain ⟨left, right, split, inFront, inLast⟩ := List.sublist_append_iff.mp both
      have nothing := alone _ _ _ shape
      cases left with
      | nil =>
          have short := inLast.length_le
          rw [List.nil_append] at split
          rw [← split] at short
          simp at short
      | cons head left =>
          obtain ⟨rfl, -⟩ := List.cons.inj split
          have member : entry ∈ sets front := mem_sets.mpr (inFront.subset (by simp))
          rw [nothing] at member
          cases member

/-- A batch does what its replay does exactly when no key is updated again once it is set,
whatever is looked at in an entry. -/
theorem agree_iff (view : ε → β) (old : List ε) (updates : List (Update ε κ)) :
    (∀ key, (entriesAt keyOf key (batch keyOf old updates)).map view =
        (entriesAt keyOf key (replay keyOf old updates)).map view) ↔ SetLast keyOf updates := by
  rw [setLast_iff]
  constructor
  · intro agree key front last shape
    have same := agree key
    rw [batch_at, replay_at, shape, if_neg (by simp), List.getLast?_concat] at same
    have lengths : (sets front ++ sets [last]).length = (sets [last]).length := by
      rw [← sets_append, ← List.length_map view, same, List.length_map]
    rw [List.length_append] at lengths
    exact List.eq_nil_of_length_eq_zero (by omega)
  · intro alone key
    rw [batch_at, replay_at]
    rcases List.eq_nil_or_concat' (updatesAt keyOf key updates) with nothing | ⟨front, last, shape⟩
    · rw [nothing, if_pos rfl]
      rfl
    · rw [shape, if_neg (by simp), List.getLast?_concat, sets_append, alone key front last shape]
      rfl

theorem SetLast.nodup (settled : SetLast keyOf updates) (unique : (old.map keyOf).Nodup) :
    ((batch keyOf old updates).map keyOf).Nodup := by
  have added : ((sets updates).map keyOf).Nodup := by
    induction updates with
    | nil => exact List.nodup_nil
    | cons first rest ih =>
        obtain ⟨apart, later⟩ := List.pairwise_cons.mp settled
        cases first with
        | erase key => exact ih later
        | set entry =>
            rw [sets, List.map_cons, List.nodup_cons]
            refine ⟨?_, ih later⟩
            intro member
            obtain ⟨other, listed, same⟩ := List.mem_map.mp member
            exact apart (.set other) (mem_sets.mp listed) entry rfl same
  rw [batch, List.map_append, List.nodup_append]
  refine ⟨unique.sublist (List.filter_sublist.map keyOf), added, ?_⟩
  intro key inOld other inNew same
  obtain ⟨entry, kept, rfl⟩ := List.mem_map.mp inOld
  obtain ⟨entry', listed, rfl⟩ := List.mem_map.mp inNew
  apply of_decide_eq_true (List.mem_filter.mp kept).2
  rw [same]
  exact List.mem_map.mpr ⟨.set entry', mem_sets.mp listed, rfl⟩

end Updating

end BatchedUpdates
