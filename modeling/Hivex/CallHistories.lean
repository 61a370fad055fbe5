import Hivex.Commands

/-! Histories of a component that hands out handles. A caller makes one call after the
other on handles it has been given. It goes on after an error; any other stop ends it. -/
namespace CallHistories

open Commands

/-- The calls of a component: what a call does, the handles it takes and the errors, with the states before
and after, on which its caller goes on. -/
structure Interface (ε σ κ η : Type) where
  run : κ → EStateM ε σ (List η)
  uses : κ → List η
  returns : κ → ε → σ → σ → Prop

variable {ε σ κ η : Type}

/-- The calls made from `start` with the handles `given`, the handles held after them and the state. -/
inductive History (calls : Interface ε σ κ η) (given : List η) (start : σ) : List κ → List η → σ → Prop where
  | opened : History calls given start [] given start
  | returned {made : List κ} {held more : List η} {s t : σ} {call : κ} : History calls given start made held s →
      (∀ n ∈ calls.uses call, n ∈ held) → calls.run call s = .ok more t →
      History calls given start (made ++ [call]) (more ++ held) t
  | refused {made : List κ} {held : List η} {s t : σ} {call : κ} {reason : ε} :
      History calls given start made held s → (∀ n ∈ calls.uses call, n ∈ held) →
      calls.run call s = .error reason t → calls.returns call reason s t →
      History calls given start (made ++ [call]) held t

variable {calls : Interface ε σ κ η} {given held held' : List η} {start s t : σ} {made later : List κ}

/-- What holds at first and is kept by each call of a kind, whether it succeeds or fails, holds after any
history of such calls. -/
theorem History.invariant {inv : List η → σ → Prop} {kind : κ → Prop} (history : History calls given start made held s)
    (ofKind : ∀ call ∈ made, kind call) (first : inv given start)
    (step : ∀ held s call, kind call → inv held s → (∀ n ∈ calls.uses call, n ∈ held) →
      wp (calls.run call) (fun more t => inv (more ++ held) t) (fun reason t => calls.returns call reason s t → inv held t) s) :
    inv held s := by
  induction history with
  | opened => exact first
  | @returned made held more s t call _ uses run ih =>
      have before := ih fun other member => ofKind other (by simp [member])
      have kept := step held s call (ofKind call (by simp)) before uses
      simp only [wp, run] at kept
      exact kept
  | @refused made held s t call reason _ uses run returned ih =>
      have before := ih fun other member => ofKind other (by simp [member])
      have kept := step held s call (ofKind call (by simp)) before uses
      simp only [wp, run] at kept
      exact kept returned

/-- A history of a caller who goes on after fewer errors. -/
theorem History.mono {strict : κ → ε → σ → σ → Prop} (fewer : ∀ call reason s t, strict call reason s t →
    calls.returns call reason s t) (history : History { calls with returns := strict } given start made held s) :
    History calls given start made held s := by
  induction history with
  | opened => exact History.opened
  | returned _ uses run ih => exact ih.returned uses run
  | refused _ uses run returned ih => exact ih.refused uses run (fewer _ _ _ _ returned)

theorem History.append (history : History calls given start made held s)
    (next : History calls held s later held' t) : History calls given start (made ++ later) held' t := by
  induction next with
  | opened =>
      rw [List.append_nil]
      exact history
  | returned _ uses run ih =>
      rw [← List.append_assoc]
      exact ih.returned uses run
  | refused _ uses run returned ih =>
      rw [← List.append_assoc]
      exact ih.refused uses run returned

theorem History.holds (history : History calls given start made held s) : given ⊆ held := by
  induction history with
  | opened => exact List.Subset.refl _
  | returned _ _ _ ih => exact fun n member => List.mem_append_right _ (ih member)
  | refused _ _ _ _ ih => exact ih

end CallHistories
