import Hivex.HiveSetValues

/-! The strings of a value of type REG_MULTI_SZ. The pointer of the loop moves past a
terminator that may be missing, so its accesses are checked here against the data. -/
namespace Hivex

open Commands

section Pieces
variable {α : Type} [DecidableEq α] {zero : α}

/-- The pieces between zeros up to the first empty one. -/
def pieces (zero : α) (units : List α) : List (List α) := (units.splitOn zero).takeWhile (· ≠ [])

theorem pieces_terminated {piece : List α} (full : piece ≠ []) (plain : zero ∉ piece) (rest : List α) :
    pieces zero (piece ++ zero :: rest) = piece :: pieces zero rest := by
  rw [pieces, List.splitOn_append_cons_self_of_not_mem plain, List.takeWhile_cons_of_pos (by simpa using full)]
  rfl

theorem pieces_last {piece : List α} (full : piece ≠ []) (plain : zero ∉ piece) :
    pieces zero piece = [piece] := by
  rw [pieces, List.splitOn_eq_singleton plain, List.takeWhile_cons_of_pos (by simpa using full)]
  rfl

theorem pieces_zero (rest : List α) : pieces zero (zero :: rest) = [] := by
  have front := List.splitOn_append_cons_self_of_not_mem (List.not_mem_nil : zero ∉ []) rest
  rw [List.nil_append] at front
  rw [pieces, front, List.takeWhile_cons_of_neg (by simp)]

theorem pieces_nil : pieces zero ([] : List α) = [] := by
  rw [pieces, List.splitOn_nil, List.takeWhile_cons_of_neg (by simp)]

/-- One round: the first piece ends before a zero or at the end. -/
theorem pieces_step (units : List α) :
    pieces zero units = match units.takeWhile (· ≠ zero) with
      | [] => []
      | piece => piece :: pieces zero (units.drop (piece.length + 1)) := by
  have plain : zero ∉ units.takeWhile (· ≠ zero) := by
    intro member
    simpa using List.mem_takeWhile_imp member
  have split : units.takeWhile (· ≠ zero) ++ units.dropWhile (· ≠ zero) = units :=
    List.takeWhile_append_dropWhile
  cases behind : units.dropWhile (· ≠ zero) with
  | nil =>
      rw [behind, List.append_nil] at split
      rw [split] at plain ⊢
      cases units with
      | nil => exact pieces_nil
      | cons u rest =>
          have past : (u :: rest).drop ((u :: rest).length + 1) = [] := by simp
          show _ = (u :: rest) :: pieces zero ((u :: rest).drop ((u :: rest).length + 1))
          rw [past, pieces_nil]
          exact pieces_last (by simp) plain
  | cons next rest =>
      have stop : next = zero := by
        have some : units.dropWhile (· ≠ zero) ≠ [] := by simp only [behind, ne_eq, reduceCtorEq, not_false_eq_true]
        have first := List.head_dropWhile_not (fun u => decide (u ≠ zero)) some
        simpa only [behind, List.head_cons, decide_eq_false_iff_not, not_not] using first
      subst stop
      rw [behind] at split
      cases front : units.takeWhile (· ≠ next) with
      | nil =>
          rw [front, List.nil_append] at split
          rw [← split]
          exact pieces_zero rest
      | cons u piece =>
          rw [front] at split plain
          have past : units.drop ((u :: piece).length + 1) = rest := by
            rw [← split]
            simp
          show _ = (u :: piece) :: pieces next (units.drop ((u :: piece).length + 1))
          rw [past, ← split]
          exact pieces_terminated (by simp) plain rest

/-- Strings without zeros are the pieces of their encoding, with or without the last
terminator of the list. -/
theorem pieces_encode {strings : List (List α)} (whole : ∀ s ∈ strings, s ≠ [] ∧ zero ∉ s)
    {ending : List α} (ends : pieces zero ending = []) :
    pieces zero (strings.flatMap (· ++ [zero]) ++ ending) = strings := by
  induction strings with
  | nil => exact ends
  | cons s rest ih =>
      obtain ⟨full, plain⟩ := whole s (by simp)
      rw [List.flatMap_cons, List.append_assoc, List.append_assoc, List.singleton_append,
        pieces_terminated full plain, ih fun s member => whole s (by simp [member])]

end Pieces

section Units

/-- A 16-bit unit by its low and its high byte. -/
abbrev Utf16Unit := UInt8 × UInt8

/-- The units that are complete: a last odd byte is left out. -/
def completeUnits : List UInt8 → List Utf16Unit
  | low :: high :: rest => (low, high) :: completeUnits rest
  | _ => []

def unitBytes (units : List Utf16Unit) : List UInt8 := units.flatMap fun u => [u.1, u.2]

theorem completeUnits_bytes (units : List Utf16Unit) : completeUnits (unitBytes units) = units := by
  induction units with
  | nil => rfl
  | cons u rest ih => exact congrArg (u :: ·) ih

theorem completeUnits_drop (k : Nat) (data : List UInt8) :
    completeUnits (data.drop (2 * k)) = (completeUnits data).drop k := by
  induction k generalizing data with
  | zero => rfl
  | succ k ih =>
      match data with
      | [] => rfl
      | [_] => simp [Nat.mul_succ, completeUnits]
      | low :: high :: rest => exact ih rest

theorem utf16StringLen_units (data : List UInt8) :
    utf16StringLenInBytesMax data = 2 * ((completeUnits data).takeWhile (· ≠ (0, 0))).length ∧
      data.take (utf16StringLenInBytesMax data) =
        unitBytes ((completeUnits data).takeWhile (· ≠ (0, 0))) := by
  match data with
  | [] => exact ⟨rfl, rfl⟩
  | [_] => exact ⟨rfl, rfl⟩
  | low :: high :: rest =>
      obtain ⟨length, bytes⟩ := utf16StringLen_units rest
      by_cases stop : low = 0 ∧ high = 0
      · obtain ⟨rfl, rfl⟩ := stop
        exact ⟨rfl, rfl⟩
      · have more : low ≠ 0 ∨ high ≠ 0 := by
          by_cases none : low = 0
          · exact Or.inr fun same => stop ⟨none, same⟩
          · exact Or.inl none
        have unit : ((low, high) : Utf16Unit) ≠ (0, 0) := fun same =>
          stop ⟨congrArg Prod.fst same, congrArg Prod.snd same⟩
        rw [utf16StringLenInBytesMax, if_pos more, completeUnits,
          List.takeWhile_cons_of_pos (p := fun u => decide (u ≠ (0, 0))) (decide_eq_true unit)]
        constructor
        · rw [length, List.length_cons]
          omega
        · rw [Nat.add_comm]
          simp only [List.take_succ_cons, bytes]
          rfl

theorem utf16StringLen_le : ∀ data : List UInt8, utf16StringLenInBytesMax data ≤ data.length
  | [] => Nat.le_refl 0
  | [_] => Nat.zero_le 1
  | low :: high :: rest => by
      have shorter := utf16StringLen_le rest
      rw [utf16StringLenInBytesMax]
      split
      · simp only [List.length_cons]
        omega
      · exact Nat.zero_le _

end Units

section Pointers
variable {host : Host} {data : List UInt8} {v : View}

/-- `*i` for a pointer `i` into the data. -/
def charAt (data : List UInt8) (i : Nat) : Reader UInt8 :=
  match data[i]? with
  | some c => pure c
  | none => throw .outside

/-- The `n` bytes from `i` on, which the converter reads. -/
def charsAt (data : List UInt8) (i n : Nat) : Reader (List UInt8) :=
  if i + n ≤ data.length then pure ((data.drop i).take n) else throw .outside

/-- `utf16_string_len_in_bytes_max` with `str` a pointer into the data. The high byte
is read only behind a low byte that is zero. -/
def utf16StringLenAt (data : List UInt8) : Nat → Nat → Reader Nat
  | str, len + 2 => do
      let low ← charAt data str
      let nonzero ← if low ≠ 0 then pure true else do
        let high ← charAt data (str + 1)
        pure (high ≠ 0)
      if nonzero then
        let rest ← utf16StringLenAt data (str + 2) len
        return 2 + rest
      return 0
  | _, _ => return 0

/-- The loop of `hivex_value_multiple_strings` with its pointer `p`. -/
def multipleStringsAt (host : Host) (data : List UInt8) : Nat → Nat → Reader (List (List UInt8))
  | 0, _ => throw .fuel
  | fuel + 1, p => do
      if p < data.length then
        let plen ← utf16StringLenAt data p (data.length - p)
        if plen > 0 then
          let input ← charsAt data p plen
          let str ← windowsUtf16ToUtf8 host input
          let rest ← multipleStringsAt host data fuel (p + plen + 2)
          return str :: rest
      return []

def hivexValueMultipleStringsAt (host : Host) (fuel value : Nat) : Reader (List (List UInt8)) := do
  let (t, data) ← hivexValueValue value
  if t ≠ HiveType.multipleStrings then throw (.errno .EINVAL)
  multipleStringsAt host data fuel 0

/-- The pieces of the data, each handed to the converter. -/
def decodePieces (host : Host) (data : List UInt8) : Reader (List (List UInt8)) :=
  (pieces (0, 0) (completeUnits data)).mapM fun piece => windowsUtf16ToUtf8 host (unitBytes piece)

theorem charAt_inside {i : Nat} {c : UInt8} {rest : List UInt8} (here : data.drop i = c :: rest) :
    charAt data i = pure c := by
  have found : data[i]? = some c := by
    rw [← List.head?_drop, here]
    rfl
  rw [charAt, found]

/-- Up to the end of the data no read leaves it. -/
theorem utf16StringLenAt_inside : ∀ {bytes : List UInt8} {str : Nat}, data.drop str = bytes →
    utf16StringLenAt data str bytes.length v = .ok (utf16StringLenInBytesMax bytes)
  | [], _, _ => rfl
  | [_], _, _ => rfl
  | low :: high :: rest, str, here => by
      have second : data.drop (str + 1) = high :: rest := by
        rw [← List.drop_drop, here]
        rfl
      have third : data.drop (str + 2) = rest := by
        rw [← List.drop_drop, here]
        rfl
      have later := utf16StringLenAt_inside third
      simp only [List.length_cons, utf16StringLenAt, charAt_inside here, charAt_inside second,
        utf16StringLenInBytesMax, bind_query, pure_query, ok_bind]
      by_cases first : low = 0
      · by_cases both : high = 0
        · simp [first, both]
        · simp [-bind_pure_comp, first, both, later]
      · simp [-bind_pure_comp, first, later]

/-- A round of the loop from a pointer inside or past the data. -/
theorem multipleStringsAt_step (fuel p : Nat) :
    multipleStringsAt host data (fuel + 1) p v =
      (match (completeUnits (data.drop p)).takeWhile (· ≠ (0, 0)) with
        | [] => .ok []
        | piece => (windowsUtf16ToUtf8 host (unitBytes piece) v).bind fun str =>
            (multipleStringsAt host data fuel (p + 2 * (piece.length + 1)) v).bind fun rest =>
              .ok (str :: rest)) := by
  obtain ⟨length, bytes⟩ := utf16StringLen_units (data.drop p)
  rw [multipleStringsAt]
  split
  · next inside =>
      have scanned := @utf16StringLenAt_inside data v _ p rfl
      rw [List.length_drop] at scanned
      rw [bind_query, scanned, ok_bind]
      have kept : utf16StringLenInBytesMax (data.drop p) ≤ data.length - p  :=
        (utf16StringLen_le _).trans_eq List.length_drop
      cases first : (completeUnits (data.drop p)).takeWhile (· ≠ (0, 0)) with
      | nil =>
          rw [first] at length
          rw [length]
          rfl
      | cons u piece =>
          rw [first] at length bytes
          have some : utf16StringLenInBytesMax (data.drop p) > 0 := by
            rw [length, List.length_cons]
            omega
          have input : charsAt data p (utf16StringLenInBytesMax (data.drop p)) =
              pure (unitBytes (u :: piece)) := by
            rw [charsAt, if_pos (by omega), bytes]
          rw [if_pos some, input]
          have next : p + utf16StringLenInBytesMax (data.drop p) + 2 = p + 2 * ((u :: piece).length + 1) := by
            omega
          rw [next]
          rfl
  · next outside =>
      have gone : data.drop p = [] := List.drop_of_length_le (by omega)
      rw [gone]
      rfl

/-- The whole loop, with fuel for every two bytes that are left. -/
theorem multipleStringsAt_pieces {fuel p : Nat} (enough : data.length - p < fuel) :
    multipleStringsAt host data fuel p v = decodePieces host (data.drop p) v := by
  induction fuel generalizing p with
  | zero => omega
  | succ fuel ih =>
      rw [multipleStringsAt_step, decodePieces, pieces_step]
      cases first : (completeUnits (data.drop p)).takeWhile (· ≠ (0, 0)) with
      | nil => rfl
      | cons u piece =>
          obtain ⟨length, -⟩ := utf16StringLen_units (data.drop p)
          have inside := utf16StringLen_le (data.drop p)
          rw [first, List.length_cons] at length
          rw [List.length_drop] at inside
          have shorter : data.length - (p + 2 * ((u :: piece).length + 1)) < fuel := by
            rw [List.length_cons]
            omega
          have units : completeUnits (data.drop (p + 2 * ((u :: piece).length + 1))) =
              (completeUnits (data.drop p)).drop ((u :: piece).length + 1) := by
            rw [← List.drop_drop, completeUnits_drop]
          dsimp only
          rw [ih shorter, mapM_cons_query, decodePieces, units]

/-- The unchecked loop, which drops what it has read, does the same. -/
theorem multipleStringsFrom_pieces {fuel : Nat} (enough : data.length < fuel) :
    multipleStringsFrom host fuel data v = decodePieces host data v := by
  induction fuel generalizing data with
  | zero => omega
  | succ fuel ih =>
      obtain ⟨length, bytes⟩ := utf16StringLen_units data
      rw [multipleStringsFrom, decodePieces, pieces_step]
      cases first : (completeUnits data).takeWhile (· ≠ (0, 0)) with
      | nil =>
          rw [first] at length
          rw [length]
          rfl
      | cons u piece =>
          rw [first, List.length_cons] at length
          rw [first] at bytes
          have some : ¬utf16StringLenInBytesMax data = 0 := by omega
          have rest : data.drop (utf16StringLenInBytesMax data + 2) = data.drop (2 * ((u :: piece).length + 1)) := by
            rw [List.length_cons, length]
            rfl
          have shorter : (data.drop (2 * ((u :: piece).length + 1))).length < fuel := by
            have inside := utf16StringLen_le data
            rw [List.length_drop, List.length_cons]
            omega
          dsimp only
          rw [if_neg some, bytes, rest, mapM_cons_query, bind_query]
          simp only [bind_query, ih shorter, decodePieces, completeUnits_drop]
          rfl

/-- Every piece that the converter refuses makes the call fail. -/
theorem decodePieces_fails {piece : List Utf16Unit} {code : Errno}
    (member : piece ∈ pieces (0, 0) (completeUnits data))
    (refused : host.iconv (unitBytes piece) = .error code) :
    ∃ code, decodePieces host data v = .error (.errno code) := by
  unfold decodePieces
  generalize pieces (0, 0) (completeUnits data) = all at member
  induction all with
  | nil => cases member
  | cons first rest ih =>
      rw [mapM_cons_query]
      cases converted : host.iconv (unitBytes first) with
      | error code => exact ⟨code, by simp only [windowsUtf16ToUtf8, converted, error_bind]⟩
      | ok out =>
          have later : piece ∈ rest := by
            rcases List.mem_cons.mp member with rfl | later
            · rw [refused] at converted
              contradiction
            · exact later
          obtain ⟨code, failed⟩ := ih later
          exact ⟨code, by simp only [windowsUtf16ToUtf8, converted, ok_bind, failed, error_bind]⟩

end Pointers

/-- One string "a" without the last terminator of the list. -/
def storedStrings : SetValue := ⟨⟨[], nulFree_nil⟩, HiveType.multipleStrings, [0x61, 0, 0, 0]⟩

/-- The call stores the strings in a vk-record at 0x2028. -/
def keepsStrings : EStateM.Result Stop Hive Unit → Bool
  | .ok _ g => decide (hivexValueValue 0x2028 g.view = .ok (storedStrings.t, storedStrings.value))
  | .error _ _ => false

end Hivex
