import Mathlib

/-! Stores whose cells carry a tag for life. A tag says what a cell must look like
and where its pointers lead; a freed cell keeps its tag and a new one gets a tag of
its own, so that a stale pointer still leads to the right kind of cell or to none. -/
namespace StoreTyping

variable {Addr Tag Cell : Type} {tags tags' : Addr → Option Tag} {store store' : Addr → Option Cell}
  {ty : (Addr → Option Tag) → Addr → Tag → Cell → Prop}

def Extends (tags tags' : Addr → Option Tag) : Prop := ∀ b t, tags b = some t → tags' b = some t

theorem Extends.refl (tags : Addr → Option Tag) : Extends tags tags := fun _ _ tagged => tagged

theorem Extends.trans {tags'' : Addr → Option Tag} (first : Extends tags tags')
    (second : Extends tags' tags'') : Extends tags tags'' :=
  fun b t tagged => second b t (first b t tagged)

/-- Every cell that is there looks as its tag says. -/
def Typed (ty : (Addr → Option Tag) → Addr → Tag → Cell → Prop) (tags : Addr → Option Tag)
    (store : Addr → Option Cell) : Prop :=
  ∀ b t c, tags b = some t → store b = some c → ty tags b t c

/-- More tags never make a cell wrong. -/
def Monotone (ty : (Addr → Option Tag) → Addr → Tag → Cell → Prop) : Prop :=
  ∀ tags tags' b t c, Extends tags tags' → ty tags b t c → ty tags' b t c

section Updates
variable [DecidableEq Addr] {b : Addr} {t : Tag} {c : Cell}

theorem Typed.write (typed : Typed ty tags store) (tagged : tags b = some t) (fits : ty tags b t c) :
    Typed ty tags (Function.update store b (some c)) := by
  intro x s d taggedX found
  by_cases here : x = b
  · subst here
    rw [Function.update_self] at found
    cases found
    rw [tagged] at taggedX
    cases taggedX
    exact fits
  · rw [Function.update_of_ne here] at found
    exact typed x s d taggedX found

theorem Typed.free (typed : Typed ty tags store) (b : Addr) :
    Typed ty tags (Function.update store b none) := by
  intro x s d taggedX found
  by_cases here : x = b
  · subst here
    rw [Function.update_self] at found
    cases found
  · rw [Function.update_of_ne here] at found
    exact typed x s d taggedX found

theorem extends_update (untagged : tags b = none) (t : Tag) :
    Extends tags (Function.update tags b (some t)) := by
  intro x s tagged
  have other : x ≠ b := by
    rintro rfl
    rw [untagged] at tagged
    cases tagged
  rw [Function.update_of_ne other]
  exact tagged

theorem Typed.alloc (typed : Typed ty tags store) (grows : Monotone ty) (untagged : tags b = none)
    (fits : ty (Function.update tags b (some t)) b t c) :
    Typed ty (Function.update tags b (some t)) (Function.update store b (some c)) := by
  intro x s d taggedX found
  by_cases here : x = b
  · subst here
    rw [Function.update_self] at taggedX found
    cases taggedX
    cases found
    exact fits
  · rw [Function.update_of_ne here] at taggedX found
    exact grows _ _ _ _ _ (extends_update untagged t) (typed x s d taggedX found)

end Updates

end StoreTyping
