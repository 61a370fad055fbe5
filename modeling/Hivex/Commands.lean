import Mathlib

/-! Programs over a store that can stop early. A program keeps its store when it
stops, as a C function that returns an error code does, so a postcondition speaks
about both ways out. Queries are the programs that cannot change what they read. -/
namespace Commands

section Queries
variable {ε ρ α β : Type}

/-- A program that reads `ρ` and changes nothing. -/
abbrev Query (ε ρ : Type) := ReaderT ρ (Except ε)

@[simp] theorem pure_query (value : α) (view : ρ) :
    (pure value : Query ε ρ α) view = .ok value := rfl

@[simp] theorem throw_query (reason : ε) (view : ρ) :
    (throw reason : Query ε ρ α) view = .error reason := rfl

@[simp] theorem bind_query (first : Query ε ρ α) (next : α → Query ε ρ β) (view : ρ) :
    (first >>= next) view = (first view).bind fun value => next value view := rfl

@[simp] theorem ok_bind (value : α) (next : α → Except ε β) :
    (Except.ok value : Except ε α).bind next = next value := rfl

@[simp] theorem error_bind (reason : ε) (next : α → Except ε β) :
    (Except.error reason : Except ε α).bind next = .error reason := rfl

theorem bind_ok_iff {first : Except ε α} {next : α → Except ε β} {result : β} :
    first.bind next = .ok result ↔ ∃ value, first = .ok value ∧ next value = .ok result := by
  cases first with
  | ok value => simp
  | error reason => simp

/-- How a query ends: with a value in `post` or a reason in `stop`. -/
def Ends (result : Except ε α) (post : α → Prop) (stop : ε → Prop) : Prop :=
  match result with
  | .ok value => post value
  | .error reason => stop reason

variable {post post' : α → Prop} {stop stop' : ε → Prop}

@[simp] theorem ends_ok (value : α) : Ends (.ok value) post stop ↔ post value := Iff.rfl

@[simp] theorem ends_error (reason : ε) :
    Ends (.error reason : Except ε α) post stop ↔ stop reason := Iff.rfl

theorem Ends.mono {result : Except ε α} (ends : Ends result post stop)
    (weaker : ∀ value, post value → post' value) (later : ∀ reason, stop reason → stop' reason) :
    Ends result post' stop' := by
  cases result with
  | ok value => exact weaker value ends
  | error reason => exact later reason ends

theorem Ends.bind {result : Except ε α} {next : α → Except ε β} {final : β → Prop}
    (ends : Ends result post stop) (continues : ∀ value, post value → Ends (next value) final stop) :
    Ends (result.bind next) final stop := by
  cases result with
  | ok value => exact continues value ends
  | error reason => exact ends

theorem Ends.known {first : Query ε ρ α} {next : α → Query ε ρ β} {final : β → Prop} {view : ρ}
    {value : α} (result : first view = .ok value) (continues : Ends (next value view) final stop) :
    Ends ((first >>= next) view) final stop := by
  rw [bind_query, result]
  exact continues

theorem Ends.seq {first : Query ε ρ α} {next : α → Query ε ρ β} {final : β → Prop} {view : ρ}
    (ends : Ends (first view) post stop)
    (continues : ∀ value, post value → Ends (next value view) final stop) :
    Ends ((first >>= next) view) final stop :=
  ends.bind continues

/-- A test that stops a query, or lets the whole query pass. -/
theorem Ends.checked {first : Query ε ρ Unit} {next : Unit → Query ε ρ β} {final : β → Prop} {view : ρ} {passes : Prop}
    (test : Ends (first view) (fun _ => passes) stop) (whole : passes → Ends ((first >>= next) view) final stop) :
    Ends ((first >>= next) view) final stop := by
  rw [bind_query] at whole ⊢
  cases result : first view with
  | ok value =>
      rw [result] at test whole
      exact whole test
  | error reason =>
      rw [result] at test
      exact test

-- Where only the value matters.
theorem Ends.after {first : Query ε ρ α} {next : α → Query ε ρ β} {final : β → Prop} {view : ρ}
    (continues : ∀ value, first view = .ok value →
      Ends (next value view) final fun _ => True) :
    Ends ((first >>= next) view) final fun _ => True := by
  rw [bind_query]
  cases found : first view with
  | ok value => exact continues value found
  | error reason => trivial

theorem Ends.and {result : Except ε α} (left : Ends result post stop)
    (right : Ends result post' stop') :
    Ends result (fun value => post value ∧ post' value)
      (fun reason => stop reason ∧ stop' reason) := by
  cases result with
  | ok value => exact ⟨left, right⟩
  | error reason => exact ⟨left, right⟩

@[simp] theorem mapM_nil_query (f : α → Query ε ρ β) (view : ρ) :
    (([] : List α).mapM f) view = .ok [] := rfl

theorem mapM_cons_query (f : α → Query ε ρ β) (x : α) (xs : List α) (view : ρ) :
    ((x :: xs).mapM f) view =
      (f x view).bind fun y => ((xs.mapM f) view).bind fun ys => .ok (y :: ys) := by
  rw [List.mapM_cons]
  rfl

-- A loop that collects one result an element.
theorem Ends.mapM (f : α → Query ε ρ β) (view : ρ) (xs : List α) (each : α → β → Prop)
    (body : ∀ x ∈ xs, Ends (f x view) (each x) stop) :
    Ends ((xs.mapM f) view) (List.Forall₂ each xs) stop := by
  induction xs with
  | nil => exact List.Forall₂.nil
  | cons x xs ih =>
      rw [mapM_cons_query]
      refine (body x (by simp)).bind fun y first => ?_
      refine (ih fun z member => body z (by simp [member])).bind fun ys rest => ?_
      exact List.Forall₂.cons first rest

theorem Ends.mapM_all (f : α → Query ε ρ β) (view : ρ) (xs : List α) (holds : β → Prop)
    (body : ∀ x ∈ xs, Ends (f x view) holds stop) :
    Ends ((xs.mapM f) view) (fun ys => ∀ y ∈ ys, holds y) stop := by
  refine (Ends.mapM f view xs (fun _ => holds) body).mono (fun ys related => ?_) fun _ stopped => stopped
  intro y member
  induction related with
  | nil => cases member
  | cons first _ ih =>
      rcases List.mem_cons.mp member with rfl | later
      · exact first
      · exact ih (fun x inside => body x (List.mem_cons_of_mem _ inside)) later

-- The same where each result is known.
theorem Ends.mapM_map (f : α → Query ε ρ β) (g : α → β) (view : ρ) (xs : List α) (holds : β → Prop)
    (body : ∀ x ∈ xs, Ends (f x view) (fun y => y = g x ∧ holds y) stop) :
    Ends ((xs.mapM f) view) (fun ys => ys = xs.map g ∧ ∀ y ∈ ys, holds y) stop := by
  induction xs with
  | nil => exact ⟨rfl, fun y member => by cases member⟩
  | cons x xs ih =>
      rw [mapM_cons_query]
      refine (body x (by simp)).bind fun y first => ?_
      refine (ih fun z member => body z (by simp [member])).bind fun ys rest => ?_
      refine ⟨by rw [first.1, rest.1]; rfl, fun z member => ?_⟩
      rcases List.mem_cons.mp member with rfl | later
      · exact first.2
      · exact rest.2 z later

theorem mapM_query_ok (f : α → Query ε ρ β) (g : α → β) (view : ρ) (xs : List α)
    (body : ∀ x ∈ xs, f x view = .ok (g x)) : (xs.mapM f) view = .ok (xs.map g) := by
  induction xs with
  | nil => rfl
  | cons x xs ih =>
      rw [mapM_cons_query, body x (by simp), ih fun z member => body z (by simp [member])]
      rfl

/-- A query that cannot tell two stores apart. -/
def Alike (v v' : ρ) (query : Query ε ρ α) : Prop := query v = query v'

section Alike
variable {v v' : ρ}

theorem Alike.pure (value : α) : Alike v v' (pure value : Query ε ρ α) := rfl

theorem Alike.throw (reason : ε) : Alike v v' (throw reason : Query ε ρ α) := rfl

theorem Alike.bind {first : Query ε ρ α} {next : α → Query ε ρ β} (same : Alike v v' first)
    (continues : ∀ value, first v = .ok value → Alike v v' (next value)) :
    Alike v v' (first >>= next) := by
  unfold Alike at *
  rw [bind_query, bind_query, ← same]
  cases found : first v with
  | ok value => exact continues value found
  | error reason => rfl

theorem Alike.known {first : Query ε ρ α} {next : α → Query ε ρ β} {value : α} (here : first v = .ok value)
    (there : first v' = .ok value) (continues : Alike v v' (next value)) : Alike v v' (first >>= next) := by
  unfold Alike at *
  rw [bind_query, bind_query, here, there]
  exact continues

theorem Alike.mapM {f : α → Query ε ρ β} {xs : List α} (each : ∀ x ∈ xs, Alike v v' (f x)) :
    Alike v v' (xs.mapM f) := by
  induction xs with
  | nil => rfl
  | cons x xs ih =>
      rw [List.mapM_cons]
      refine (each x (by simp)).bind fun y _ => ?_
      exact (ih fun z member => each z (by simp [member])).bind fun ys _ => Alike.pure _

end Alike

end Queries

section Programs
variable {ε σ α β : Type}

/-- The states from which `program` ends in `post`, or stops in `stop`. -/
def wp (program : EStateM ε σ α) (post : α → σ → Prop) (stop : ε → σ → Prop) (s : σ) : Prop :=
  match program s with
  | .ok value t => post value t
  | .error reason t => stop reason t

variable {post post' : α → σ → Prop} {stop stop' : ε → σ → Prop}

@[simp] theorem wp_pure (value : α) (s : σ) : wp (pure value) post stop s ↔ post value s := Iff.rfl

@[simp] theorem wp_throw (reason : ε) (s : σ) :
    wp (throw reason : EStateM ε σ α) post stop s ↔ stop reason s := Iff.rfl

@[simp] theorem wp_get {post : σ → σ → Prop} (s : σ) :
    wp (get : EStateM ε σ σ) post stop s ↔ post s s := Iff.rfl

@[simp] theorem wp_set {post : PUnit → σ → Prop} (t s : σ) :
    wp (set t : EStateM ε σ PUnit) post stop s ↔ post ⟨⟩ t := Iff.rfl

@[simp] theorem wp_modify {post : PUnit → σ → Prop} (f : σ → σ) (s : σ) :
    wp (modify f : EStateM ε σ PUnit) post stop s ↔ post ⟨⟩ (f s) := Iff.rfl

@[simp] theorem wp_bind {final : β → σ → Prop} (first : EStateM ε σ α) (next : α → EStateM ε σ β)
    (s : σ) : wp (first >>= next) final stop s ↔
      wp first (fun value t => wp (next value) final stop t) stop s := by
  simp only [wp, bind, EStateM.bind]
  cases first s <;> rfl

theorem run_ok {first : EStateM ε σ α} {next : α → EStateM ε σ β} {s t : σ} {value : α}
    (run : first s = .ok value t) : (first >>= next) s = next value t := by
  simp only [bind, EStateM.bind, run]

theorem run_error {first : EStateM ε σ α} {next : α → EStateM ε σ β} {s t : σ} {reason : ε}
    (run : first s = .error reason t) : (first >>= next) s = .error reason t := by
  simp only [bind, EStateM.bind, run]

theorem get_then (next : σ → EStateM ε σ α) (s : σ) : (get >>= next) s = next s s := rfl

theorem modify_then (f : σ → σ) (next : PUnit → EStateM ε σ α) (s : σ) :
    (modify f >>= next) s = next ⟨⟩ (f s) := rfl

theorem throw_then (reason : ε) (next : β → EStateM ε σ α) (s : σ) :
    (throw reason >>= next) s = .error reason s := rfl

theorem wp_mono {program : EStateM ε σ α} {s : σ} (holds : wp program post stop s)
    (weaker : ∀ value t, post value t → post' value t)
    (later : ∀ reason t, stop reason t → stop' reason t) : wp program post' stop' s := by
  unfold wp at *
  cases h : program s with
  | ok value t => rw [h] at holds; exact weaker value t holds
  | error reason t => rw [h] at holds; exact later reason t holds

-- Sequencing through a middle condition: the way a caller cites a callee's rule.
theorem wp_seq {first : EStateM ε σ α} {next : α → EStateM ε σ β} {final : β → σ → Prop} {s : σ}
    (holds : wp first post stop s)
    (continues : ∀ value t, post value t → wp (next value) final stop t) :
    wp (first >>= next) final stop s :=
  (wp_bind first next s).mpr (wp_mono holds continues fun _ _ stopped => stopped)

theorem wp_of_ok {program : EStateM ε σ α} {s t : σ} {value : α} (run : program s = .ok value t)
    (holds : post value t) : wp program post stop s := by
  simpa only [wp, run] using holds

theorem wp_any (program : EStateM ε σ α) (s : σ) :
    wp program (fun _ _ => True) (fun _ _ => True) s := by
  unfold wp
  cases program s <;> trivial

theorem wp_self (program : EStateM ε σ α) (s : σ) :
    wp program (fun value t => program s = .ok value t) (fun _ _ => True) s := by
  unfold wp
  split
  · assumption
  · trivial

-- Two programs that do the same here go on from the same places.
theorem run_same {first first' : EStateM ε σ α} {next next' : α → EStateM ε σ β} {s : σ}
    (same : first s = first' s) (holds : wp first' post (fun _ _ => True) s)
    (continues : ∀ value t, post value t → next value t = next' value t) :
    (first >>= next) s = (first' >>= next') s := by
  unfold wp at holds
  cases result : first' s with
  | ok value t =>
      rw [result] at same holds
      rw [run_ok same, run_ok result]
      exact continues value t holds
  | error reason t =>
      rw [result] at same
      rw [run_error same, run_error result]

theorem wp_and {program : EStateM ε σ α} {s : σ} (left : wp program post stop s)
    (right : wp program post' stop' s) :
    wp program (fun value t => post value t ∧ post' value t)
      (fun reason t => stop reason t ∧ stop' reason t) s := by
  unfold wp at *
  cases h : program s with
  | ok value t => rw [h] at left right; exact ⟨left, right⟩
  | error reason t => rw [h] at left right; exact ⟨left, right⟩

theorem wp_known {program : EStateM ε σ α} {s : σ} (holds : wp program post (fun _ _ => True) s) :
    wp program (fun value t => program s = .ok value t ∧ post value t) (fun _ _ => True) s :=
  wp_mono (wp_and (wp_self program s) holds) (fun _ _ both => both) fun _ _ _ => trivial

/-- Run a query on the part of the store it is about. -/
def look {ρ : Type} (part : σ → ρ) (query : Query ε ρ α) : EStateM ε σ α := fun s =>
  match query (part s) with
  | .ok value => .ok value s
  | .error reason => .error reason s

theorem wp_look {ρ : Type} (part : σ → ρ) (query : Query ε ρ α) (s : σ) :
    wp (look part query) post stop s ↔
      Ends (query (part s)) (fun value => post value s) (fun reason => stop reason s) := by
  unfold wp look Ends
  cases query (part s) <;> rfl

/-- Turn the reasons `soft` recognises into values, as a caller that tests a
return code does; every other reason still stops the program. -/
def attempt {δ : Type} (soft : ε → Option δ) (program : EStateM ε σ α) : EStateM ε σ (Except δ α) :=
  fun s =>
    match program s with
    | .ok value t => .ok (.ok value) t
    | .error reason t =>
      match soft reason with
      | some code => .ok (.error code) t
      | none => .error reason t

theorem wp_attempt {δ : Type} {post : Except δ α → σ → Prop} (soft : ε → Option δ)
    (program : EStateM ε σ α) (s : σ) :
    wp (attempt soft program) post stop s ↔
      wp program (fun value t => post (.ok value) t)
        (fun reason t => match soft reason with
          | some code => post (.error code) t
          | none => stop reason t) s := by
  unfold wp attempt
  cases program s with
  | ok value t => rfl
  | error reason t => cases h : soft reason <;> simp only [h]

-- The loop rule: `inv` speaks about the elements still to come.
theorem wp_forM (body : α → EStateM ε σ PUnit) (inv : List α → σ → Prop)
    (step : ∀ x rest s, inv (x :: rest) s → wp (body x) (fun _ t => inv rest t) stop s)
    (xs : List α) (s : σ) (start : inv xs s) :
    wp (xs.forM body) (fun _ t => inv [] t) stop s := by
  induction xs generalizing s with
  | nil => exact start
  | cons x xs ih =>
      show wp (body x >>= fun _ => xs.forM body) _ _ s
      exact wp_seq (step x xs s start) fun _ t => ih t

theorem wp_foldlM {δ : Type} (body : α → δ → EStateM ε σ α) (inv : List δ → α → σ → Prop)
    (step : ∀ a x rest s, inv (x :: rest) a s → wp (body a x) (fun b t => inv rest b t) stop s)
    (xs : List δ) (a : α) (s : σ) (start : inv xs a s) :
    wp (xs.foldlM body a) (fun b t => inv [] b t) stop s := by
  induction xs generalizing a s with
  | nil => exact start
  | cons x xs ih =>
      rw [List.foldlM_cons]
      exact wp_seq (step a x xs s start) fun b t => ih b t

/-- Two programs that do the same to the store and end in related values. -/
def Sim {α' : Type} (rel : α → α' → Prop) (left : EStateM ε σ α) (right : EStateM ε σ α') : Prop :=
  ∀ s, match left s, right s with
    | .ok value t, .ok value' t' => rel value value' ∧ t = t'
    | .error reason t, .error reason' t' => reason = reason' ∧ t = t'
    | _, _ => False

section Sim
variable {α' β' : Type} {rel : α → α' → Prop} {rel' : β → β' → Prop}

theorem Sim.of_eq {left right : EStateM ε σ α} (same : left = right) : Sim Eq left right := by
  subst same
  intro s
  cases left s <;> exact ⟨rfl, rfl⟩

theorem Sim.eq {left right : EStateM ε σ α} (sim : Sim Eq left right) : left = right := by
  funext s
  have here := sim s
  cases leftRun : left s <;> cases rightRun : right s <;> rw [leftRun, rightRun] at here
  · rw [here.1, here.2]
  · cases here
  · cases here
  · rw [here.1, here.2]

theorem Sim.pure {value : α} {value' : α'} (related : rel value value') :
    Sim rel (pure value : EStateM ε σ α) (pure value' : EStateM ε σ α') := fun _ => ⟨related, rfl⟩

theorem Sim.throw (reason : ε) :
    Sim rel (throw reason : EStateM ε σ α) (throw reason : EStateM ε σ α') := fun _ => ⟨rfl, rfl⟩

theorem Sim.bind {left : EStateM ε σ α} {right : EStateM ε σ α'} {next : α → EStateM ε σ β}
    {next' : α' → EStateM ε σ β'} (sim : Sim rel left right)
    (continues : ∀ value value', rel value value' → Sim rel' (next value) (next' value')) :
    Sim rel' (left >>= next) (right >>= next') := by
  intro s
  have here := sim s
  simp only [Bind.bind, EStateM.bind]
  cases leftRun : left s with
  | ok value t =>
      cases rightRun : right s with
      | ok value' t' =>
          rw [leftRun, rightRun] at here
          obtain ⟨related, rfl⟩ := here
          exact continues value value' related t
      | error reason t' => rw [leftRun, rightRun] at here; cases here
  | error reason t =>
      cases rightRun : right s with
      | ok value' t' => rw [leftRun, rightRun] at here; cases here
      | error reason' t' => rw [leftRun, rightRun] at here; exact here

theorem Sim.foldlM {δ : Type} {f : α → δ → EStateM ε σ α} {f' : α' → δ → EStateM ε σ α'}
    (body : ∀ value value' x, rel value value' → Sim rel (f value x) (f' value' x))
    (xs : List δ) {value : α} {value' : α'} (related : rel value value') :
    Sim rel (xs.foldlM f value) (xs.foldlM f' value') := by
  induction xs generalizing value value' with
  | nil => exact Sim.pure related
  | cons x xs ih =>
      rw [List.foldlM_cons, List.foldlM_cons]
      exact (body value value' x related).bind fun _ _ later => ih later

end Sim

/-- `probe` stops with `alarm`, or does what `run` does. -/
def Until (alarm : ε) (probe run : EStateM ε σ α) : Prop :=
  ∀ s, (∃ t, probe s = .error alarm t) ∨ run s = probe s

section Until
variable {alarm : ε}

theorem Until.refl (program : EStateM ε σ α) : Until alarm program program := fun _ => Or.inr rfl

theorem Until.raise (next : α → EStateM ε σ β) (run : EStateM ε σ β) :
    Until alarm (throw alarm >>= next) run := fun s => Or.inl ⟨s, rfl⟩

theorem Until.bind {probe run : EStateM ε σ α} {next next' : α → EStateM ε σ β}
    (first : Until alarm probe run) (continues : ∀ value, Until alarm (next value) (next' value)) :
    Until alarm (probe >>= next) (run >>= next') := by
  intro s
  rcases first s with ⟨t, stopped⟩ | same
  · exact Or.inl ⟨t, run_error stopped⟩
  · cases result : probe s with
    | ok value t =>
        rw [result] at same
        rw [run_ok result, run_ok same]
        exact continues value t
    | error reason t =>
        rw [result] at same
        rw [run_error result, run_error same]
        exact Or.inr rfl

theorem Until.after (program : EStateM ε σ α) {next next' : α → EStateM ε σ β}
    (continues : ∀ value, Until alarm (next value) (next' value)) :
    Until alarm (program >>= next) (program >>= next') :=
  (Until.refl program).bind continues

theorem Until.ite {condition : Prop} [Decidable condition] {probe probe' run run' : EStateM ε σ α}
    (yes : Until alarm probe run) (no : Until alarm probe' run') :
    Until alarm (if condition then probe else probe') (if condition then run else run') := by
  split
  · exact yes
  · exact no

-- A guard, or any detour that comes back.
theorem Until.branch {condition : Prop} [Decidable condition] {detour : EStateM ε σ Unit}
    {next next' : Unit → EStateM ε σ α} (continues : ∀ back, Until alarm (next back) (next' back)) :
    Until alarm (if condition then detour >>= next else next ())
      (if condition then detour >>= next' else next' ()) :=
  Until.ite (Until.after detour continues) (continues ())

theorem Until.branch_back {condition : Prop} [Decidable condition] {detour : EStateM ε σ Unit}
    {next next' : Unit → EStateM ε σ α} (continues : ∀ back, Until alarm (next back) (next' back)) :
    Until alarm (if condition then next () else detour >>= next)
      (if condition then next' () else detour >>= next') :=
  Until.ite (continues ()) (Until.after detour continues)

theorem Until.forM {body body' : α → EStateM ε σ PUnit}
    (each : ∀ x, Until alarm (body x) (body' x)) (xs : List α) :
    Until alarm (xs.forM body) (xs.forM body') := by
  induction xs with
  | nil => exact Until.refl _
  | cons x xs ih => exact (each x).bind fun _ => ih

theorem Until.foldlM {δ : Type} {body body' : α → δ → EStateM ε σ α}
    (each : ∀ value x, Until alarm (body value x) (body' value x)) (xs : List δ) (value : α) :
    Until alarm (xs.foldlM body value) (xs.foldlM body' value) := by
  induction xs generalizing value with
  | nil => exact Until.refl _
  | cons x xs ih =>
      rw [List.foldlM_cons, List.foldlM_cons]
      exact (each value x).bind fun later => ih later

end Until

end Programs

end Commands
