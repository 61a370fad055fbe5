import Hivex.Commands

/-! Programs that keep a promise about their state and a ghost value, which stands for
what the state does not record. An error return keeps the promise too; a stop that ends
the program need not. -/
namespace GhostRuns

open Commands

/-- An invariant, how a run may change state and ghost, and the kinds of stops. -/
structure Contract (ε σ γ : Type) where
  inv : γ → σ → Prop
  moves : γ → σ → γ → σ → Prop
  returns : ε → Prop
  ends : ε → Prop
  refl : ∀ g s, moves g s g s
  trans : ∀ {g s g' s' g'' s''}, moves g s g' s' → moves g' s' g'' s'' → moves g s g'' s''

variable {ε σ γ α β : Type} {contract contract' : Contract ε σ γ} {g : γ} {s : σ}
  {post post' mid : α → γ → σ → Prop} {fail fail' : γ → σ → Prop}

/-- The program keeps the contract from here, ends in `post` or fails in `fail`. -/
def Runs (contract : Contract ε σ γ) (g : γ) (program : EStateM ε σ α) (post : α → γ → σ → Prop)
    (fail : γ → σ → Prop) (s : σ) : Prop :=
  wp program
    (fun value t => ∃ g', contract.inv g' t ∧ contract.moves g s g' t ∧ post value g' t)
    (fun reason t => contract.ends reason ∨ contract.returns reason ∧
      ∃ g', contract.inv g' t ∧ contract.moves g s g' t ∧ fail g' t) s

theorem Runs.pure (contract : Contract ε σ γ) (value : α) (inv : contract.inv g s) (holds : post value g s) :
    Runs contract g (pure value) post fail s :=
  ⟨g, inv, contract.refl g s, holds⟩

theorem Runs.throw (contract : Contract ε σ γ) {reason : ε} (returns : contract.returns reason) (inv : contract.inv g s)
    (fails : fail g s) : Runs contract g (throw reason) post fail s :=
  Or.inr ⟨returns, g, inv, contract.refl g s, fails⟩

theorem Runs.bind {program : EStateM ε σ α} {next : α → EStateM ε σ β} {final : β → γ → σ → Prop}
    (first : Runs contract g program mid fail s)
    (continues : ∀ value g' t, contract.inv g' t → contract.moves g s g' t → mid value g' t →
      Runs contract g' (next value) final fail t) :
    Runs contract g (program >>= next) final fail s := by
  apply wp_seq first
  rintro value t ⟨g', inv, moves, middle⟩
  apply wp_mono (continues value g' t inv moves middle)
  · rintro result u ⟨g'', inv', moves', holds⟩
    exact ⟨g'', inv', contract.trans moves moves', holds⟩
  · intro reason u stopped
    apply stopped.imp_right
    rintro ⟨returns, g'', inv', moves', fails⟩
    exact ⟨returns, g'', inv', contract.trans moves moves', fails⟩

theorem Runs.mono {program : EStateM ε σ α} (runs : Runs contract g program post fail s)
    (weaker : ∀ value g' t, contract.inv g' t → contract.moves g s g' t → post value g' t →
      post' value g' t)
    (later : ∀ g' t, contract.inv g' t → contract.moves g s g' t → fail g' t → fail' g' t) :
    Runs contract g program post' fail' s := by
  apply wp_mono runs
  · rintro value t ⟨g', inv, moves, holds⟩
    exact ⟨g', inv, moves, weaker value g' t inv moves holds⟩
  · intro reason t stopped
    apply stopped.imp_right
    rintro ⟨returns, g', inv, moves, fails⟩
    exact ⟨returns, g', inv, moves, later g' t inv moves fails⟩

/-- A run under a stricter contract. -/
theorem Runs.weaken {program : EStateM ε σ α} (runs : Runs contract g program post fail s)
    (inv : ∀ g' t, contract.inv g' t → contract'.inv g' t)
    (moves : ∀ g' t, contract.moves g s g' t → contract'.moves g s g' t)
    (returns : ∀ reason, contract.returns reason → contract'.returns reason)
    (ends : ∀ reason, contract.ends reason → contract'.ends reason) :
    Runs contract' g program post fail s := by
  apply wp_mono runs
  · rintro value t ⟨g', holds, moved, done⟩
    exact ⟨g', inv g' t holds, moves g' t moved, done⟩
  · rintro reason t (stopped | ⟨returned, g', holds, moved, failed⟩)
    · exact Or.inl (ends reason stopped)
    · exact Or.inr ⟨returns reason returned, g', inv g' t holds, moves g' t moved, failed⟩

/-- A program that has done its first steps. -/
theorem Runs.after {program rest : EStateM ε σ α} {g' : γ} {t : σ} (steps : program s = rest t)
    (moved : contract.moves g s g' t) (runs : Runs contract g' rest post fail t) :
    Runs contract g program post fail s := by
  unfold Runs wp at *
  rw [steps]
  cases result : rest t with
  | ok value u =>
      rw [result] at runs
      obtain ⟨g'', inv, moves, holds⟩ := runs
      exact ⟨g'', inv, contract.trans moved moves, holds⟩
  | error reason u =>
      rw [result] at runs
      apply runs.imp_right
      rintro ⟨returns, g'', inv, moves, fails⟩
      exact ⟨returns, g'', inv, contract.trans moved moves, fails⟩

theorem Runs.get {next : σ → EStateM ε σ β} {final : β → γ → σ → Prop}
    (continues : Runs contract g (next s) final fail s) :
    Runs contract g (get >>= next) final fail s := continues

theorem Runs.look (contract : Contract ε σ γ) {ρ : Type} {part : σ → ρ} {query : Query ε ρ α} (inv : contract.inv g s)
    (result : Ends (query (part s)) (fun value => post value g s)
      (fun reason => contract.ends reason ∨ contract.returns reason ∧ fail g s)) :
    Runs contract g (look part query) post fail s := by
  apply (wp_look _ _ _).mpr
  apply result.mono
  · exact fun value holds => ⟨g, inv, contract.refl g s, holds⟩
  · exact fun reason stopped =>
      stopped.imp_right fun ⟨returns, fails⟩ => ⟨returns, g, inv, contract.refl g s, fails⟩

/-- Going on from a query, which changes nothing. -/
theorem Runs.query {ρ : Type} {part : σ → ρ} {query : Query ε ρ α} {next : α → EStateM ε σ β} {values : α → Prop}
    {final : β → γ → σ → Prop} (inv : contract.inv g s)
    (result : Ends (query (part s)) values fun reason => contract.returns reason) (fails : fail g s)
    (continues : ∀ value, values value → Runs contract g (next value) final fail s) :
    Runs contract g (Commands.look part query >>= next) final fail s := by
  unfold Runs
  rw [wp_bind, wp_look]
  apply result.mono
  · exact continues
  · exact fun reason returned => Or.inr ⟨returned, g, inv, contract.refl g s, fails⟩

theorem Runs.known {ρ : Type} {part : σ → ρ} {query : Query ε ρ α} {next : α → EStateM ε σ β} {value : α}
    {final : β → γ → σ → Prop} (result : query (part s) = .ok value)
    (continues : Runs contract g (next value) final fail s) :
    Runs contract g (Commands.look part query >>= next) final fail s := by
  unfold Runs
  rw [wp_bind, wp_look, result]
  exact continues

theorem Runs.ite {condition : Prop} [Decidable condition] {yes no : EStateM ε σ α}
    (left : condition → Runs contract g yes post fail s)
    (right : ¬condition → Runs contract g no post fail s) :
    Runs contract g (if condition then yes else no) post fail s := by
  split
  · exact left ‹_›
  · exact right ‹_›

/-- A test that leaves with an error, before the rest of a program. -/
theorem Runs.guard {condition : Prop} [Decidable condition] {reason : ε} {next : Unit → EStateM ε σ α}
    (leaves : condition → contract.returns reason ∧ fail g s) (inv : contract.inv g s)
    (continues : ¬condition → Runs contract g (next ()) post fail s) :
    Runs contract g
      (if condition then (MonadExcept.throw reason : EStateM ε σ Unit) >>= next else next ()) post fail s := by
  split
  · next taken => exact Or.inr ⟨(leaves taken).1, g, inv, contract.refl g s, (leaves taken).2⟩
  · next passes => exact continues passes

/-- The loop rule: `loop` speaks about the elements still to come. -/
theorem Runs.forM {body : α → EStateM ε σ PUnit} (loop : List α → γ → σ → Prop)
    (step : ∀ x rest g s, contract.inv g s → loop (x :: rest) g s →
      Runs contract g (body x) (fun _ g' t => loop rest g' t) fail s)
    (xs : List α) (inv : contract.inv g s) (start : loop xs g s) :
    Runs contract g (xs.forM body) (fun _ g' t => loop [] g' t) fail s := by
  induction xs generalizing g s with
  | nil => exact Runs.pure contract _ inv start
  | cons x xs ih =>
      show Runs contract g (body x >>= fun _ => xs.forM body) _ _ s
      apply (step x xs g s inv start).bind
      exact fun _ g' t inv' _ => ih inv'

theorem Runs.foldlM {δ : Type} {body : α → δ → EStateM ε σ α} (loop : List δ → α → γ → σ → Prop)
    (step : ∀ a x rest g s, contract.inv g s → loop (x :: rest) a g s →
      Runs contract g (body a x) (fun b g' t => loop rest b g' t) fail s)
    (xs : List δ) (a : α) (inv : contract.inv g s) (start : loop xs a g s) :
    Runs contract g (xs.foldlM body a) (fun b g' t => loop [] b g' t) fail s := by
  induction xs generalizing a g s with
  | nil => exact Runs.pure contract _ inv start
  | cons x xs ih =>
      rw [List.foldlM_cons]
      apply (step a x xs g s inv start).bind
      exact fun b g' t inv' _ => ih b inv'

end GhostRuns
