import Hivex.RegeditGrammar

/-! Continuation lines. Breaking lines with a backslash changes neither what the importer asks
of the hive, in which order, nor how the import ends. -/
namespace Regedit
open LineText

/-- What the importer asks of the hive. -/
inductive Action where
  | merge (newnode : Text) (newvalues : List Value) (delvalues : List Text)
  | delete (path : Text)
deriving DecidableEq, Repr

def Action.perform (h : Hive) : Action → Except Stop Hive
  | .merge newnode newvalues delvalues => mergeNode h newnode newvalues delvalues
  | .delete path => deleteNode h path

def State.asks : State → Text → Option Action
  | .outer, line => if isIgnored line then none else (bracketed ['[', '-'] line).map .delete
  | .inner newnode newvalues delvalues, line =>
      if isDeleteValue line || isDeleteDefault line || isOrdinaryValue line ||
          (after ['@', '='] line).isSome || !isBlank line then none
      else some (.merge newnode newvalues delvalues)

def State.asksLast : State → List Action
  | .outer => []
  | .inner newnode newvalues delvalues => [.merge newnode newvalues delvalues]

/-- The actions of an import in their order, up to the one that stops it, and its end. -/
def traced (encode : Text → List UInt8) (s : State × Hive) :
    List (Text × Nat) → List Action × Except Stop Hive
  | [] => (s.1.asksLast, importEnd s)
  | line :: rest =>
      let asked := (s.1.asks line.1).toList
      match importLine encode s line with
      | .error stop => (asked, .error stop)
      | .ok next => ((asked ++ (traced encode next rest).1), (traced encode next rest).2)

def regImportTraced (encode : Text → List UInt8) (text : Text) (h : Hive) : List Action × Except Stop Hive :=
  traced encode (.outer, h) (logicalLines [] 0 (rawLines text))

section Tracing
variable {encode : Text → List UInt8} {s : State} {h : Hive} {line : Text} {lineno : Nat} {action : Action}

/-- A line that asks for something gets what the hive answers. -/
theorem importLine_asked (asked : s.asks line = some action) :
    importLine encode (s, h) (line, lineno) = (action.perform h).map fun h => (.outer, h) := by
  cases s with
  | outer =>
      simp only [State.asks] at asked
      split at asked
      · cases asked
      · rename_i read
        obtain ⟨path, found, rfl⟩ := Option.map_eq_some_iff.mp asked
        simp [importLine, outerLine, read, found, Action.perform]
  | inner newnode newvalues delvalues =>
      simp only [State.asks] at asked
      split at asked
      · cases asked
      · rename_i other
        obtain rfl := Option.some.inj asked
        simp only [Bool.or_eq_true, not_or, Bool.not_eq_true, Option.isSome_eq_false_iff,
          Option.isNone_iff_eq_none, Bool.not_eq_false'] at other
        obtain ⟨⟨⟨⟨deletes, deletesDefault⟩, sets⟩, setsDefault⟩, blank⟩ := other
        simp [importLine, innerLine, deletes, deletesDefault, sets, setsDefault, blank, Action.perform]

/-- Any other line leaves the hive alone, and does the same whatever the hive holds. -/
theorem importLine_quiet (quiet : s.asks line = none) (other : Hive) :
    importLine encode (s, h) (line, lineno) =
      (importLine encode (s, other) (line, lineno)).map fun next => (next.1, h) := by
  cases s with
  | outer =>
      simp only [State.asks] at quiet
      split at quiet
      · rename_i ignored
        simp [importLine, outerLine, ignored, Except.map]
      · rename_i read
        have absent := Option.map_eq_none_iff.mp quiet
        cases found : bracketed ['['] line with
        | none => simp [importLine, outerLine, read, absent, found, Except.map]
        | some path => simp [importLine, outerLine, read, absent, found, Except.map]
  | inner newnode newvalues delvalues =>
      simp only [State.asks] at quiet
      split at quiet
      · rename_i recognised
        have wanted : ∀ value, wantedLine newnode newvalues delvalues h line lineno value =
            (wantedLine newnode newvalues delvalues other line lineno value).map fun next => (next.1, h) := by
          intro value
          cases value <;> rfl
        simp only [importLine, innerLine]
        split
        · cases parseQuotedString line <;> rfl
        · split
          · rfl
          · split
            · exact wanted _
            · split
              · exact wanted _
              · rename_i deletes deletesDefault sets _ found
                rw [if_neg, if_neg]
                · rfl
                · intro blank
                  simp [deletes, deletesDefault, sets, found, blank] at recognised
                · intro blank
                  simp [deletes, deletesDefault, sets, found, blank] at recognised
      · cases quiet

theorem traced_end (s : State × Hive) (lines : List (Text × Nat)) :
    (traced encode s lines).2 = lines.foldlM (importLine encode) s >>= importEnd := by
  induction lines generalizing s with
  | nil => rfl
  | cons line rest ih =>
      rw [List.foldlM_cons, traced]
      cases step : importLine encode s line with
      | error stop => rfl
      | ok next => exact ih next

/-- The trace is of the import itself. -/
theorem regImportTraced_end (text : Text) : (regImportTraced encode text h).2 = regImport encode text h :=
  traced_end (.outer, h) (logicalLines [] 0 (rawLines text))

end Tracing

section LineEnd
variable {encode : Text → List UInt8} {line start : Text}

theorem after_newline (free : '\n' ∉ start) :
    after start (line ++ ['\n']) = (after start line).map (· ++ ['\n']) := by
  unfold after
  by_cases begins : start <+: line
  · obtain ⟨rest, rfl⟩ := begins
    have longer : start ++ rest ++ ['\n'] = start ++ (rest ++ ['\n']) := List.append_assoc ..
    rw [longer, if_pos (List.prefix_append ..), if_pos (List.prefix_append ..), List.drop_left, List.drop_left]
    rfl
  · have longer : ¬start <+: line ++ ['\n'] := by
      intro prefixed
      rcases List.prefix_concat_iff.mp prefixed with whole | earlier
      · exact free (by simp [whole])
      · exact begins earlier
    simp [longer, begins]

theorem infix_newline {inside : Text} (free : '\n' ∉ inside) :
    inside <:+: line ++ ['\n'] ↔ inside <:+: line := by
  constructor
  · intro within
    rcases List.infix_concat_iff.mp within with ending | earlier
    · rcases List.suffix_concat_iff.mp ending with nothing | ⟨front, last, -⟩
      · rw [nothing]
        exact List.nil_infix
      · exact absurd (by simp [last]) free
    · exact earlier
  · exact fun within => within.trans (List.prefix_append line ['\n']).isInfix

theorem trimEnd_newline : trimEnd (line ++ ['\n']) = trimEnd line := trimEnd_blank rfl

theorem isBlank_newline : isBlank (line ++ ['\n']) = isBlank line := by
  simp [isBlank, isSpace]

theorem isIgnored_newline : isIgnored (line ++ ['\n']) = isIgnored line := by
  have versions : header <:+: line ++ ['\n'] ↔ header <:+: line := infix_newline (by decide)
  have regedit : "REGEDIT".toList <+: line ++ ['\n'] ↔ "REGEDIT".toList <+: line := by
    rw [List.prefix_concat_iff]
    constructor
    · rintro (whole | earlier)
      · exact absurd (congrArg List.getLast? whole) (by simp)
      · exact earlier
    · exact Or.inr
  have comment : ((line ++ ['\n']).dropWhile isSpace).head? = (line.dropWhile isSpace).head? := by
    rw [List.dropWhile_append]
    split
    · rename_i nothing
      rw [List.isEmpty_iff.mp nothing]
      simp [isSpace]
    · rename_i something
      rw [List.head?_append_of_ne_nil _ (by simpa using something)]
  unfold isIgnored
  rw [isBlank_newline, decide_eq_decide.mpr versions, decide_eq_decide.mpr regedit, comment]

theorem isDeleteValue_newline : isDeleteValue (line ++ ['\n']) = isDeleteValue line := by
  unfold isDeleteValue
  rw [trimEnd_newline]

theorem isDeleteDefault_newline : isDeleteDefault (line ++ ['\n']) = isDeleteDefault line := by
  unfold isDeleteDefault
  rw [trimEnd_newline]

theorem isOrdinaryValue_newline : isOrdinaryValue (line ++ ['\n']) = isOrdinaryValue line := by
  cases line with
  | nil => decide
  | cons c rest =>
      have same : [quote, '='] <:+: rest ++ ['\n'] ↔ [quote, '='] <:+: rest := infix_newline (by decide)
      simp only [List.cons_append, isOrdinaryValue, same]

theorem quotedRest_newline (ends : line.getLast? ≠ some backslash) :
    quotedRest (line ++ ['\n']) = (quotedRest line).map fun (out, rest) => (out, rest ++ ['\n']) := by
  induction line using quotedRest.induct with
  | case1 => decide
  | case2 text =>
      rw [List.cons_append, quotedRest_quote, quotedRest_quote]
      rfl
  | case3 differ => exact absurd rfl ends
  | case4 escaped text differ ih =>
      rw [List.cons_append, List.cons_append, quotedRest_escaped, quotedRest_escaped]
      have later : text.getLast? ≠ some backslash := fun last =>
        ends (by rw [List.getLast?_cons, List.getLast?_cons, last]; rfl)
      rw [ih later]
      cases quotedRest text <;> rfl
  | case5 c text notQuote notBackslash ih =>
      rw [List.cons_append, quotedRest_plain notQuote notBackslash, quotedRest_plain notQuote notBackslash]
      have later : text.getLast? ≠ some backslash := fun last => ends (by rw [List.getLast?_cons, last]; rfl)
      rw [ih later]
      cases quotedRest text <;> rfl

theorem parseQuotedString_newline (ends : line.getLast? ≠ some backslash) :
    parseQuotedString (line ++ ['\n']) = (parseQuotedString line).map fun (out, rest) => (out, rest ++ ['\n']) := by
  cases line with
  | nil => decide
  | cons c rest =>
      rw [List.cons_append, parseQuotedString, parseQuotedString]
      by_cases opens : c = quote
      · rw [if_pos opens, if_pos opens]
        exact quotedRest_newline fun last => ends (by rw [List.getLast?_cons, last]; rfl)
      · rw [if_neg opens, if_neg opens]
        rfl

theorem parseValue_newline (key : Text) (plain : '\n' ∉ line) :
    parseValue encode key (line ++ ['\n']) = parseValue encode key line := by
  unfold parseValue
  rw [chomp_line, chomp_of_newlineFree plain]

theorem parseKeyValue_newline (ends : line.getLast? ≠ some backslash) (plain : '\n' ∉ line) :
    parseKeyValue encode (line ++ ['\n']) = parseKeyValue encode line := by
  unfold parseKeyValue
  rw [parseQuotedString_newline ends]
  cases read : parseQuotedString line with
  | none => rfl
  | some found =>
      obtain ⟨key, rest⟩ := found
      show (after ['='] (rest ++ ['\n'])).bind _ = (after ['='] rest).bind _
      rw [after_newline (by decide)]
      cases signed : after ['='] rest with
      | none => rfl
      | some text =>
          apply parseValue_newline
          rcases parseQuotedString_sound read with ⟨source, -, rfl⟩ | ⟨-, past⟩
          · rw [after_eq_some signed] at plain
            exact fun member => plain (by simp [member])
          · exact absurd past ends

theorem last_of_whole (whole : continued line = none) : line.getLast? ≠ some backslash := by
  intro last
  obtain ⟨front, rfl⟩ := List.getLast?_eq_some_iff.mp last
  have solid : trimEnd (front ++ [backslash]) = front ++ [backslash] := trimEnd_of_last (by decide)
  simp [continued, solid] at whole

theorem asks_newline (s : State) : s.asks (line ++ ['\n']) = s.asks line := by
  cases s with
  | outer => simp only [State.asks, isIgnored_newline, bracketed, trimEnd_newline]
  | inner newnode newvalues delvalues =>
      have default : (after ['@', '='] (line ++ ['\n'])).isSome = (after ['@', '='] line).isSome := by
        rw [after_newline (by decide), Option.isSome_map]
      simp only [State.asks, isDeleteValue_newline, isDeleteDefault_newline, isOrdinaryValue_newline, default,
        isBlank_newline]

/-- A line end that was not chomped changes no more than the message of an error. -/
theorem importLine_newline (whole : continued line = none) (plain : '\n' ∉ line) (s : State × Hive) (n m : Nat) :
    (importLine encode s (line ++ ['\n'], n)).toOption = (importLine encode s (line, m)).toOption := by
  have ends := last_of_whole whole
  obtain ⟨s, h⟩ := s
  cases s with
  | outer =>
      simp only [importLine, outerLine, isIgnored_newline, bracketed, trimEnd_newline]
      split
      · rfl
      · split
        · rfl
        · split <;> rfl
  | inner newnode newvalues delvalues =>
      simp only [importLine, innerLine, isDeleteValue_newline, isDeleteDefault_newline, isOrdinaryValue_newline,
        isBlank_newline, parseQuotedString_newline ends, parseKeyValue_newline ends plain]
      split
      · cases parseQuotedString line <;> rfl
      · split
        · rfl
        · split
          · cases parseKeyValue encode line <;> rfl
          · rw [after_newline (by decide)]
            cases default : after ['@', '='] line with
            | none =>
                dsimp only [Option.map_none]
                split <;> rfl
            | some text =>
                have free : '\n' ∉ text := by
                  rw [after_eq_some default] at plain
                  exact fun member => plain (by simp [member])
                simp only [Option.map_some, chomp_line, chomp_of_newlineFree free]
                cases parseValue encode [] text <;> rfl

end LineEnd

/-- `broken` is `text` with a backslash, spaces and a newline put in anywhere, as often as
one likes, where more of the line than spaces is still to come. -/
inductive Breaks : Text → Text → Prop where
  | done : Breaks [] []
  | keep (c : Char) {rest broken : Text} : Breaks rest broken → Breaks (c :: rest) (c :: broken)
  | cut {spaces rest broken : Text} : isBlank spaces = true → '\n' ∉ spaces →
      isBlank (rest.takeWhile (· ≠ '\n')) = false → Breaks rest broken →
      Breaks rest (backslash :: spaces ++ '\n' :: broken)

/-- The physical lines of one line. -/
inductive Pieces : Text → List Text → Prop where
  | whole (line : Text) : Pieces line [line]
  | cut {left right spaces : Text} {pieces : List Text} : isBlank spaces = true → Pieces right pieces →
      Pieces (left ++ right) ((left ++ backslash :: spaces ++ ['\n']) :: pieces)

inductive BrokenLines : List Text → List Text → Prop where
  | nil : BrokenLines [] []
  | cons {line : Text} {pieces lines others : List Text} : Pieces line pieces → BrokenLines lines others →
      BrokenLines (line :: lines) (pieces ++ others)

/-- The second line shows the first, perhaps with the line end that was not chomped. -/
def Shows (line shown : Text × Nat) : Prop :=
  continued line.1 = none ∧ '\n' ∉ line.1 ∧ (shown.1 = line.1 ∨ shown.1 = line.1 ++ ['\n'])

section Joining
variable {line text broken carried left spaces : Text} {pieces lines others : List Text}

theorem Pieces.ne_nil (cut : Pieces line pieces) : pieces ≠ [] := by
  cases cut <;> simp

theorem Pieces.cons (c : Char) (cut : Pieces line pieces) :
    ∃ first rest, pieces = first :: rest ∧ Pieces (c :: line) ((c :: first) :: rest) := by
  cases cut with
  | whole => exact ⟨line, [], rfl, Pieces.whole (c :: line)⟩
  | cut blank later => exact ⟨_, _, rfl, @Pieces.cut (c :: _) _ _ _ blank later⟩

theorem BrokenLines.eq_nil (cut : BrokenLines lines []) : lines = [] := by
  generalize nothing : [] = others at cut
  cases cut with
  | nil => rfl
  | cons first _ => exact absurd (List.append_eq_nil_iff.mp nothing.symm).1 first.ne_nil

/-- The lines of a broken text are pieces of the lines of the text. -/
theorem Breaks.byLine (breaks : Breaks text broken) : BrokenLines (rawLines text) (rawLines broken) := by
  induction breaks with
  | done => exact BrokenLines.nil
  | @keep c rest broken _ ih =>
      by_cases ending : c = '\n'
      · rw [rawLines, rawLines, if_pos ending, if_pos ending]
        exact BrokenLines.cons (Pieces.whole [c]) ih
      · rw [rawLines, rawLines, if_neg ending, if_neg ending]
        generalize rawLines rest = lines at ih
        generalize rawLines broken = others at ih
        cases ih with
        | nil => exact BrokenLines.cons (Pieces.whole [c]) BrokenLines.nil
        | cons cut later =>
            obtain ⟨first, pieces, rfl, longer⟩ := cut.cons c
            exact BrokenLines.cons longer later
  | @cut spaces rest broken blank free more _ ih =>
      have line : rawLines (backslash :: spaces ++ '\n' :: broken) =
          (backslash :: spaces ++ ['\n']) :: rawLines broken := by
        apply rawLines_line
        rw [List.mem_cons]
        exact not_or.mpr ⟨by decide, free⟩
      rw [line]
      have some_line : rawLines rest ≠ [] := by
        cases rest with
        | nil => cases more
        | cons c rest =>
            rw [rawLines]
            split
            · simp
            · split <;> simp
      generalize rawLines rest = lines at ih some_line
      generalize rawLines broken = others at ih
      cases ih with
      | nil => exact absurd rfl some_line
      | cons cut later => exact BrokenLines.cons (@Pieces.cut [] _ _ _ blank cut) later

theorem continued_cut (blank : isBlank spaces = true) :
    continued (chomp (carried ++ (left ++ backslash :: spaces ++ ['\n']))) = some (carried ++ left) := by
  have split : carried ++ (left ++ backslash :: spaces ++ ['\n']) =
      ((carried ++ left ++ [backslash]) ++ spaces) ++ ['\n'] := by simp
  have solid : trimEnd (carried ++ left ++ [backslash]) = carried ++ left ++ [backslash] :=
    trimEnd_of_last (by decide)
  rw [split, chomp_line]
  unfold continued
  simp only [trimEnd_blank blank, solid, List.getLast?_concat, if_true, List.dropLast_concat]

/-- The pieces of a line join to the line again. Only at the end of the file the line end is left. -/
theorem Pieces.join (cut : Pieces line pieces) (whole : continued (carried ++ line) = none) (lineno : Nat) :
    ∃ n, logicalLines carried lineno (pieces ++ others) =
        (chomp (carried ++ line), n) :: logicalLines [] n others ∨
      others = [] ∧ logicalLines carried lineno (pieces ++ others) = [(carried ++ line, n)] := by
  induction cut generalizing carried lineno with
  | whole line =>
      have chomped : continued (chomp (carried ++ line)) = none := by
        unfold continued at *
        rwa [trimEnd_chomp]
      refine ⟨lineno + 1, Or.inl ?_⟩
      rw [List.singleton_append, logicalLines]
      simp only [chomped]
  | @cut left right spaces pieces blank later ih =>
      rw [← List.append_assoc] at whole ⊢
      have joins := @continued_cut carried left spaces blank
      rw [List.cons_append, logicalLines]
      simp only [joins]
      cases rest : pieces ++ others with
      | nil => exact absurd (List.append_eq_nil_iff.mp rest).1 later.ne_nil
      | cons next tail =>
          cases tail with
          | nil =>
              -- the second read meets the end of the file
              cases later with
              | whole =>
                  obtain ⟨rfl, rfl⟩ := List.cons.inj rest
                  exact ⟨lineno + 1, Or.inr ⟨rfl, rfl⟩⟩
              | cut blank' last' =>
                  have short := (List.append_eq_nil_iff.mp (List.cons.inj rest).2).1
                  exact absurd short last'.ne_nil
          | cons next' more =>
              obtain ⟨n, joined⟩ := ih whole (lineno + 1)
              rw [rest] at joined
              exact ⟨n, joined⟩

theorem shown_chomp (whole : continued line = none) (plain : '\n' ∉ chomp line) (n m : Nat) :
    Shows (chomp line, n) (chomp line, m) ∧ Shows (chomp line, n) (line, m) := by
  have chomped : continued (chomp line) = none := by
    unfold continued at *
    rwa [trimEnd_chomp]
  exact ⟨⟨chomped, plain, Or.inl rfl⟩, chomped, plain, chomp_split line⟩

theorem BrokenLines.shown (cut : BrokenLines lines others)
    (whole : ∀ line ∈ lines, continued line = none ∧ '\n' ∉ chomp line) (n m : Nat) :
    List.Forall₂ Shows (logicalLines [] n lines) (logicalLines [] m others) := by
  induction cut generalizing n m with
  | nil => exact List.Forall₂.nil
  | @cons line pieces lines others cut later ih =>
      obtain ⟨uncut, plain⟩ := whole line (by simp)
      have rest := ih fun other member => whole other (by simp [member])
      have chomped : continued (chomp line) = none := by
        unfold continued at *
        rwa [trimEnd_chomp]
      have single : logicalLines [] n (line :: lines) = (chomp line, n + 1) :: logicalLines [] (n + 1) lines := by
        rw [logicalLines]
        simp only [List.nil_append, chomped]
      have alone : continued ([] ++ line) = none := uncut
      rw [single]
      obtain ⟨k, joined | ⟨rfl, joined⟩⟩ := @Pieces.join line [] pieces others cut alone m
      · rw [joined]
        exact List.Forall₂.cons (shown_chomp uncut plain _ _).1 (rest _ _)
      · rw [joined]
        rw [later.eq_nil]
        exact List.Forall₂.cons (shown_chomp uncut plain _ _).2 List.Forall₂.nil

end Joining

section Transparency
variable {encode : Text → List UInt8} {lines shown : List (Text × Nat)} {text broken : Text}

/-- Lines that show the same trace the same. -/
theorem traced_shown (same : List.Forall₂ Shows lines shown) (s : State × Hive) :
    (traced encode s shown).1 = (traced encode s lines).1 ∧
      (traced encode s shown).2.toOption = (traced encode s lines).2.toOption := by
  induction same generalizing s with
  | nil => exact ⟨rfl, rfl⟩
  | @cons line line' lines shown shows _ ih =>
      obtain ⟨line, n⟩ := line
      obtain ⟨line', m⟩ := line'
      obtain ⟨whole, plain, form⟩ := shows
      have asked : s.1.asks line' = s.1.asks line := by
        rcases form with same | ended
        · rw [show line' = line from same]
        · rw [show line' = line ++ ['\n'] from ended]
          exact asks_newline s.1
      have step : (importLine encode s (line', m)).toOption = (importLine encode s (line, n)).toOption := by
        have numbered := @importLine_newline encode line whole plain s m
        rcases form with same | ended
        · rw [show line' = line from same, ← numbered n, ← numbered m]
        · rw [show line' = line ++ ['\n'] from ended]
          exact numbered n
      rw [traced, traced]
      dsimp only
      rw [asked]
      cases first : importLine encode s (line, n) with
      | error stop =>
          rw [first] at step
          cases second : importLine encode s (line', m) with
          | error stop' => exact ⟨rfl, rfl⟩
          | ok next =>
              rw [second] at step
              cases step
      | ok next =>
          rw [first] at step
          cases second : importLine encode s (line', m) with
          | error stop' =>
              rw [second] at step
              cases step
          | ok next' =>
              rw [second] at step
              obtain rfl := Option.some.inj step
              obtain ⟨actions, ends⟩ := ih next'
              dsimp only
              rw [actions]
              exact ⟨rfl, ends⟩

/-- A text whose lines are broken anywhere imports like the text: the same actions in the same order,
and the same hive, unless both fail. -/
theorem regImport_broken (breaks : Breaks text broken) (whole : ∀ line ∈ rawLines text, continued line = none)
    (encode : Text → List UInt8) (h : Hive) :
    (regImportTraced encode broken h).1 = (regImportTraced encode text h).1 ∧
      (regImport encode broken h).toOption = (regImport encode text h).toOption := by
  have shown := breaks.byLine.shown (fun line member => ⟨whole line member, rawLines_plain text line member⟩) 0 0
  rw [← regImportTraced_end, ← regImportTraced_end]
  exact traced_shown shown (.outer, h)

end Transparency

theorem Breaks.behind {rest broken : Text} (breaks : Breaks rest broken) (front : Text) :
    Breaks (front ++ rest) (front ++ broken) := by
  induction front with
  | nil => exact breaks
  | cons c front ih => exact Breaks.keep c ih

/-- A section whose value is broken twice, at the end of the file. -/
def brokenSection : Text :=
  ['[', backslash, 'A', ']', '\n', '@', backslash, ' ', '\n', '=', quote, backslash, '\n', 'b', quote]

theorem brokenSection_breaks : Breaks (sectionText stringLine) brokenSection := by
  have last : Breaks ['b', quote] ['b', quote] := Breaks.keep _ (Breaks.keep _ Breaks.done)
  have second := @Breaks.cut [] _ _ rfl (by decide) (by decide) last
  have first := @Breaks.cut [' '] _ _ rfl (by decide) (by decide) (second.behind ['=', quote])
  exact first.behind ['[', backslash, 'A', ']', '\n', '@']

theorem brokenSection_imports : (regImportTraced (fun _ => []) brokenSection emptyHive).1 =
      (regImportTraced (fun _ => []) (sectionText stringLine) emptyHive).1 ∧
    (regImport (fun _ => []) brokenSection emptyHive).toOption =
      (regImport (fun _ => []) (sectionText stringLine) emptyHive).toOption :=
  regImport_broken brokenSection_breaks (by decide) (fun _ => []) emptyHive

end Regedit
