import Hivex.BatchedUpdates
import Hivex.RegeditGrammar

/-! A section merged at once, against the same lines merged one section each. -/
namespace Regedit
open LineText BatchedUpdates

def Value.folded (value : Value) : Text := lc value.key

/-- Type and data of every value whose key folds to `key`. -/
def dataAt (key : Text) (values : List Value) : List (Nat × List UInt8) :=
  (entriesAt Value.folded key values).map fun value => (value.t, value.value)

def UniqueKeys (values : List Value) : Prop := (values.map Value.folded).Nodup

def Record.update : Record → Update Value Text
  | .set value => .set value
  | .delete key => .erase (lc key)

def Record.key : Record → Text
  | .set value => value.key
  | .delete key => key

def deletedKeys : List Record → List Text
  | [] => []
  | .set _ :: rest => deletedKeys rest
  | .delete key :: rest => key :: deletedKeys rest

/-- Once a line sets a key, no later line of the section sets or deletes it. -/
def SetOnce (records : List Record) : Prop :=
  records.Pairwise fun first later => ∀ value, first = .set value → lc later.key ≠ lc value.key

/-- A line that opens a section for `path`. -/
structure Opens (opening path : Text) : Prop where
  plain : '\n' ∉ opening
  taken : isIgnored opening = false
  notDelete : bracketed ['[', '-'] opening = none
  found : bracketed ['['] opening = some path

/-- Lines without line ends, and what they stand for. -/
structure Lines (encode : Text → List UInt8) (lines : List Text) (records : List Record) : Prop where
  plain : ∀ line ∈ lines, '\n' ∉ line
  denotes : List.Forall₂ (Denotes encode) lines records

def sectionOf (opening : Text) (lines : List Text) : Text := unlines (opening :: lines ++ [[]])

/-- One section a line. -/
def sectionEach (opening : Text) (lines : List Text) : Text := lines.flatMap fun line => sectionOf opening [line]

/-- A section leaves its node with the values that its lines leave one section each, and with
unique keys if they were. -/
def InOrder (encode : Text → List UInt8) (opening : Text) (lines : List Text) (h : Hive) (node : Node) : Prop :=
  ∃ whole each, regImport encode (sectionOf opening lines) h = .ok whole ∧
    regImport encode (sectionEach opening lines) h = .ok each ∧
    (∀ key, dataAt key (nodeValues whole node) = dataAt key (nodeValues each node)) ∧
    (UniqueKeys (nodeValues h node) → UniqueKeys (nodeValues whole node))

section Whole
variable {encode : Text → List UInt8} {line : Text} {r : Record}

theorem continued_of_tail (front : Text) {tail : Text} (solid : isBlank tail = false) (plain : backslash ∉ tail) :
    continued (front ++ tail) = none := by
  obtain ⟨spaces, blank, split⟩ := trimEnd_split tail
  have some : trimEnd tail ≠ [] := by
    intro none
    rw [none, List.nil_append] at split
    rw [split, blank] at solid
    cases solid
  have last : isSpace ((trimEnd tail).getLast some) = false :=
    Bool.eq_false_iff.mpr (List.rdropWhile_last_not isSpace tail some)
  have shape : front ++ tail = (front ++ (trimEnd tail).dropLast ++ [(trimEnd tail).getLast some]) ++ spaces := by
    rw [List.append_assoc front, List.dropLast_append_getLast, List.append_assoc, ← split]
  have trimmed : trimEnd (front ++ tail) = front ++ (trimEnd tail).dropLast ++ [(trimEnd tail).getLast some] := by
    rw [shape, trimEnd_blank blank, trimEnd_of_last last]
  have differs : (trimEnd tail).getLast some ≠ backslash := by
    intro same
    apply plain
    rw [split, ← same]
    exact List.mem_append_left _ (List.getLast_mem some)
  simp [continued, trimmed, differs]

theorem backslash_not_digit {c : Char} (digit : isXDigit c = true) : c ≠ backslash := by
  intro same
  rw [same] at digit
  exact absurd digit (by decide)

theorem backslash_not_in_blank {spaces : Text} (blank : isBlank spaces = true) : backslash ∉ spaces := by
  intro member
  exact absurd (List.all_eq_true.mp blank backslash member) (by decide)

theorem HexOpening.noBackslash {opening : Text} {t : Nat} (opens : HexOpening opening t) :
    backslash ∉ opening ∧ ∀ rest, isBlank (opening ++ rest) = false := by
  cases opens with
  | binary => exact ⟨by decide, fun rest => rfl⟩
  | typed some all =>
      constructor
      · rw [List.mem_append, List.mem_append]
        rintro ((first | digit) | last)
        · exact absurd first (by decide)
        · exact backslash_not_digit (all _ digit) rfl
        · exact absurd last (by decide)
      · exact fun rest => rfl

theorem isHexText_noBackslash {text : Text} (digits : isHexText text = true) : backslash ∉ text := by
  intro member
  have kept : backslash ∈ digitsOf text := List.mem_filter.mpr ⟨member, by decide⟩
  rw [isHexText, Bool.and_eq_true] at digits
  exact backslash_not_digit (List.all_eq_true.mp digits.1 _ kept) rfl

/-- No line of the grammar goes on in the next one. -/
theorem Denotes.whole (denotes : Denotes encode line r) : continued line = none := by
  cases denotes with
  | @set k name d t bytes key data =>
      cases data with
      | @dword digits eight all =>
          have tail : k ++ '=' :: ("dword:".toList ++ digits) = (k ++ ['=']) ++ ("dword:".toList ++ digits) := by simp
          rw [tail]
          apply continued_of_tail
          · rfl
          · rw [List.mem_append]
            exact not_or.mpr ⟨by decide, fun digit => backslash_not_digit (all _ digit) rfl⟩
      | @hex opening text _ _ opens listed =>
          cases listed with
          | listed digits pairs =>
              have tail : k ++ '=' :: (opening ++ text) = (k ++ ['=']) ++ (opening ++ text) := by simp
              rw [tail]
              apply continued_of_tail
              · exact opens.noBackslash.2 text
              · rw [List.mem_append]
                exact not_or.mpr ⟨opens.noBackslash.1, isHexText_noBackslash digits⟩
      | @string opening source out _ opens string =>
          obtain ⟨front, rfl⟩ := quoted_last string
          have tail : k ++ '=' :: (opening ++ (front ++ [quote])) = (k ++ '=' :: (opening ++ front)) ++ [quote] := by simp
          rw [tail]
          exact continued_of_tail _ rfl (by decide)
  | @delete k name spaces key blank =>
      have split : k ++ '=' :: '-' :: spaces = (k ++ ['=']) ++ ('-' :: spaces) := by simp
      rw [split]
      apply continued_of_tail
      · rfl
      · rw [List.mem_cons]
        exact not_or.mpr ⟨by decide, backslash_not_in_blank blank⟩

end Whole

section Merging
variable {h : Hive} {node : Node} {path : Text} {values : List Value} {records : List Record}

theorem imember_iff {item : Text} : imember item (deletedKeys records ++ (sets (records.map Record.update)).map Value.key) = true ↔
    lc item ∈ (records.map Record.update).map (Update.key Value.folded) := by
  unfold imember
  rw [List.any_eq_true]
  induction records with
  | nil => simp [deletedKeys, sets]
  | cons r records ih =>
      cases r with
      | set value =>
          rw [List.map_cons, List.map_cons, List.mem_cons, ← ih]
          simp only [deletedKeys, Record.update, sets, List.map_cons, List.mem_append, List.mem_cons, Update.key,
            Value.folded, beq_iff_eq]
          constructor
          · rintro ⟨key, inDeleted | rfl | inSets, same⟩
            · exact Or.inr ⟨key, Or.inl inDeleted, same⟩
            · exact Or.inl same.symm
            · exact Or.inr ⟨key, Or.inr inSets, same⟩
          · rintro (same | ⟨key, inDeleted | inSets, same⟩)
            · exact ⟨value.key, Or.inr (Or.inl rfl), same.symm⟩
            · exact ⟨key, Or.inl inDeleted, same⟩
            · exact ⟨key, Or.inr (Or.inr inSets), same⟩
      | delete deleted =>
          rw [List.map_cons, List.map_cons, List.mem_cons, ← ih]
          simp only [deletedKeys, Record.update, sets, List.cons_append, List.mem_append, List.mem_cons, Update.key,
            beq_iff_eq]
          constructor
          · rintro ⟨key, rfl | listed, same⟩
            · exact Or.inl same.symm
            · exact Or.inr ⟨key, listed, same⟩
          · rintro (same | ⟨key, listed, same⟩)
            · exact ⟨deleted, Or.inl rfl, same.symm⟩
            · exact ⟨key, Or.inr listed, same⟩

/-- Merging the records of a section is one batch. -/
theorem mergeNode_batch (resolves : nodeLookup h path = some node) :
    mergeNode h path (sets (records.map Record.update)) (deletedKeys records) =
      .ok (nodeSetValues h node (batch Value.folded (nodeValues h node) (records.map Record.update))) := by
  have merged : (nodeValues h node).filter (fun value => !imember value.key (deletedKeys records ++
        (sets (records.map Record.update)).map Value.key)) ++ sets (records.map Record.update) =
      batch Value.folded (nodeValues h node) (records.map Record.update) := by
    apply filter_eq_batch
    intro value
    rw [Bool.not_eq_true', Bool.eq_false_iff, ne_eq, imember_iff]
    rfl
  simp only [mergeNode, findOrAdd, resolves, bind, Except.bind, merged]
  rfl

theorem nodeValues_set (present : ∃ entry ∈ h, entry.node = node) : nodeValues (nodeSetValues h node values) node = values := by
  induction h with
  | nil =>
      obtain ⟨entry, member, -⟩ := present
      cases member
  | cons first rest ih =>
      by_cases here : first.node = node
      · simp [nodeValues, nodeSetValues, here]
      · have later : ∃ entry ∈ rest, entry.node = node := by
          obtain ⟨entry, member, same⟩ := present
          rcases List.mem_cons.mp member with rfl | inRest
          · exact absurd same here
          · exact ⟨entry, inRest, same⟩
        have shown := ih later
        simp only [nodeValues, nodeSetValues] at shown ⊢
        rw [List.map_cons, if_neg here, List.find?_cons_of_neg (by simpa using here)]
        exact shown

theorem present_set (present : ∃ entry ∈ h, entry.node = node) :
    ∃ entry ∈ nodeSetValues h node values, entry.node = node := by
  obtain ⟨entry, member, same⟩ := present
  refine ⟨_, List.mem_map_of_mem member, ?_⟩
  rw [if_pos same]
  exact same

theorem nodeGetChild_set (parent : Node) (name : Text) :
    nodeGetChild (nodeSetValues h node values) parent name = nodeGetChild h parent name := by
  unfold nodeGetChild nodeSetValues
  induction h with
  | nil => rfl
  | cons first rest ih =>
      have same : (if first.node = node then { first with values := values } else first).node = first.node := by
        split <;> rfl
      rw [List.map_cons, List.find?_cons, List.find?_cons, same]
      cases isChild parent name first.node with
      | true => exact congrArg some same
      | false => exact ih

theorem nodeLookup_set : nodeLookup (nodeSetValues h node values) path = nodeLookup h path := by
  have same : nodeGetChild (nodeSetValues h node values) = nodeGetChild h := by
    funext parent name
    exact nodeGetChild_set parent name
  unfold nodeLookup
  rw [same]

end Merging

section Running
variable {encode : Text → List UInt8} {opening path : Text} {lines : List Text} {records : List Record} {h : Hive}
  {node : Node}

theorem Lines.cons_inv {line : Text} (written : Lines encode (line :: lines) records) :
    ∃ r rest, records = r :: rest ∧ '\n' ∉ line ∧ Denotes encode line r ∧ Lines encode lines rest := by
  have plain := written.plain
  cases written.denotes with
  | cons denotes later =>
      exact ⟨_, _, rfl, plain line (by simp), denotes, fun other member => plain other (by simp [member]), later⟩

theorem Lines.recorded (written : Lines encode lines records) (newvalues : List Value) (delvalues : List Text)
    (lineno : Nat) :
    (lines.zipIdx lineno).foldlM (importLine encode) (.inner path newvalues delvalues, h) =
      .ok (.inner path (newvalues ++ sets (records.map Record.update)) (delvalues ++ deletedKeys records), h) := by
  induction lines generalizing records newvalues delvalues lineno with
  | nil =>
      cases written.denotes
      simp [sets, deletedKeys, pure, Except.pure]
  | cons line lines ih =>
      obtain ⟨r, rest, rfl, plain, denotes, later⟩ := written.cons_inv
      have same : chomp line = line := chomp_of_newlineFree plain
      have step : importLine encode (.inner path newvalues delvalues, h) (line, lineno) =
          .ok (r.addTo path newvalues delvalues, h) :=
        innerLine_complete (by rwa [same]) (by rwa [same])
      rw [List.zipIdx_cons, List.foldlM_cons, step]
      cases r with
      | set value =>
          refine (ih later (newvalues ++ [value]) delvalues (lineno + 1)).trans ?_
          simp [Record.update, sets, deletedKeys]
      | delete key =>
          refine (ih later newvalues (delvalues ++ [key]) (lineno + 1)).trans ?_
          simp [Record.update, sets, deletedKeys]

theorem Opens.line (opens : Opens opening path) (h : Hive) (lineno : Nat) :
    outerLine h opening lineno = .ok (.inner path [] [], h) := by
  simp [outerLine, opens.taken, opens.notDelete, opens.found]

/-- A section is one batch of its node's values. -/
theorem Lines.section (written : Lines encode lines records) (opens : Opens opening path)
    (resolves : nodeLookup h path = some node) (lineno : Nat) :
    ((opening :: lines ++ [[]]).zipIdx lineno).foldlM (importLine encode) (.outer, h) =
      .ok (.outer, nodeSetValues h node (batch Value.folded (nodeValues h node) (records.map Record.update))) := by
  have start : importLine encode (.outer, h) (opening, lineno) = .ok (.inner path [] [], h) := opens.line h lineno
  have inner := @Lines.recorded encode path lines records h written [] [] (lineno + 1)
  rw [List.cons_append, List.zipIdx_cons, List.foldlM_cons, start]
  simp only [bind, Except.bind, List.zipIdx_append, List.foldlM_append]
  rw [inner]
  simp only [List.nil_append, List.zipIdx_cons, List.zipIdx_nil, List.foldlM_cons, List.foldlM_nil, bind, Except.bind]
  have blank : ∀ n, importLine encode (.inner path (sets (records.map Record.update)) (deletedKeys records), h)
      ([], n) = _ :=
    innerLine_blank encode path (sets (records.map Record.update)) (deletedKeys records) h
  rw [blank, mergeNode_batch resolves]
  rfl

/-- One section a line replays the lines on the values. -/
theorem Lines.each (written : Lines encode lines records) (opens : Opens opening path)
    (resolves : nodeLookup h path = some node) (present : ∃ entry ∈ h, entry.node = node) (lineno : Nat) :
    ∃ each, ((lines.flatMap fun line => opening :: [line] ++ [[]]).zipIdx lineno).foldlM (importLine encode)
        (.outer, h) = .ok (.outer, each) ∧
      nodeValues each node = replay Value.folded (nodeValues h node) (records.map Record.update) := by
  induction lines generalizing records h lineno with
  | nil =>
      cases written.denotes
      exact ⟨h, rfl, rfl⟩
  | cons line lines ih =>
      obtain ⟨r, rest, rfl, plain, denotes, later⟩ := written.cons_inv
      have single : Lines encode [line] [r] := by
        constructor
        · simpa using plain
        · exact List.Forall₂.cons denotes List.Forall₂.nil
      have first := single.section opens resolves lineno
      set next := nodeSetValues h node (batch Value.folded (nodeValues h node) ([r].map Record.update)) with nextEq
      have values : nodeValues next node = _ := nodeValues_set present
      obtain ⟨each, run, ends⟩ := ih later (nodeLookup_set.trans resolves) (present_set present)
        (lineno + (opening :: [line] ++ [[]]).length)
      refine ⟨each, ?_, ?_⟩
      · rw [List.flatMap_cons, List.zipIdx_append, List.foldlM_append, first]
        exact run
      · rw [ends, values]
        rfl

theorem Opens.whole (opens : Opens opening path) : continued opening = none := by
  have found := opens.found
  unfold bracketed at found
  split at found
  · cases found
  · rename_i inside opened
    split at found
    · rename_i closed
      obtain ⟨front, ended⟩ := List.getLast?_eq_some_iff.mp closed
      have last : (trimEnd opening).getLast? = some ']' := by
        rw [after_eq_some opened, ended, ← List.append_assoc, List.getLast?_concat]
      have differ : ']' ≠ backslash := by decide
      simp [continued, last, differ]
    · cases found

theorem regImport_lines (plain : ∀ line ∈ lines, '\n' ∉ line ∧ continued line = none) :
    regImport encode (unlines lines) h = (lines.zipIdx 1).foldlM (importLine encode) (.outer, h) >>= importEnd := by
  rw [regImport, rawLines_unlines fun line member => (plain line member).1, logicalLines_whole plain]

theorem Lines.whole (written : Lines encode lines records) : ∀ line ∈ lines, '\n' ∉ line ∧ continued line = none := by
  intro line member
  obtain ⟨i, inside, rfl⟩ := List.mem_iff_getElem.mp member
  have same := written.denotes.length_eq
  have denotes := written.denotes.get inside (by omega)
  exact ⟨written.plain _ member, denotes.whole⟩

theorem setOnce_iff : SetLast Value.folded (records.map Record.update) ↔ SetOnce records := by
  unfold SetLast SetOnce
  rw [List.pairwise_map]
  apply iff_of_eq
  congr 1
  funext first later
  have folded : later.update.key Value.folded = lc later.key := by cases later <;> rfl
  rw [folded]
  cases first with
  | set value => simp [Record.update, Value.folded]
  | delete key => simp [Record.update]

end Running

def rootLine : Text := ['[', backslash, ']']

def setLine : Text := [quote, 'a', quote, '=', quote, 'x', quote]

def deleteLine : Text := [quote, 'a', quote, '=', '-']

def setRecord : Record := .set ⟨['a'], 1, [0x78]⟩

theorem rootLine_opens : Opens rootLine [backslash] := by
  constructor <;> decide

theorem keyA_quoted : Quoted [quote, 'a', quote] ['a'] :=
  Quoted.between (Chars.plain (by decide) (by decide) Chars.nil)

theorem setLine_written : Lines (fun _ => [0x78]) [setLine, deleteLine] [setRecord, .delete ['a']] := by
  constructor
  · decide
  · have data : Quoted [quote, 'x', quote] ['x'] :=
      Quoted.between (Chars.plain (by decide) (by decide) Chars.nil)
    exact List.Forall₂.cons (Denotes.set (Key.named keyA_quoted) (Data.string StringOpening.bare data))
      (List.Forall₂.cons (@Denotes.delete _ _ _ [] (Key.named keyA_quoted) rfl) List.Forall₂.nil)

end Regedit
