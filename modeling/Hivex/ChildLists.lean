import Mathlib.Data.List.Nodup
import Mathlib.Data.List.Perm.Subperm
import Mathlib.Logic.Relation

/-! Trees given by the lists of the children of their nodes. What the nodes of a tree are after a
leaf has been added, or a node taken out with all below it, and how many of them have a label. -/
namespace ChildLists

variable {α β : Type}

/-- `n` is `top` or below it. -/
def Below (kids : α → List α) : α → α → Prop := Relation.ReflTransGen fun p k => k ∈ kids p

/-- The nodes of the tree, each once. -/
structure Enumerates (kids : α → List α) (root : α) (nodes : List α) : Prop where
  distinct : nodes.Nodup
  exactly : ∀ n, n ∈ nodes ↔ Below kids root n

/-- No node is in two lists. -/
def Single (kids : α → List α) (nodes : List α) : Prop :=
  ∀ m ∈ nodes, ∀ n ∈ nodes, ∀ k, k ∈ kids m → k ∈ kids n → m = n

/-- The new leaf `node` is a child of `p`. -/
structure Grows (kids kids' : α → List α) (nodes : List α) (p node : α) : Prop where
  fresh : node ∉ nodes
  here : ∃ front back, kids p = front ++ back ∧ kids' p = front ++ node :: back
  leaf : kids' node = []
  others : ∀ n ∈ nodes, n ≠ p → kids' n = kids n

/-- The child `node` of `p` is taken out, with the nodes `gone` below it. -/
structure Prunes (kids kids' : α → List α) (nodes : List α) (p node : α) (gone : List α) : Prop where
  exactly : ∀ n, n ∈ gone ↔ Below kids node n
  above : p ∉ gone
  here : ∃ front back, kids p = front ++ node :: back ∧ kids' p = front ++ back
  others : ∀ n ∈ nodes, n ≠ p → n ∉ gone → kids' n = kids n

section Members
variable {kids kids' : α → List α} {nodes gone : List α} {root p node k : α}

theorem Enumerates.top (members : Enumerates kids root nodes) : root ∈ nodes :=
  (members.exactly root).mpr Relation.ReflTransGen.refl

theorem Enumerates.kid (members : Enumerates kids root nodes) (inside : p ∈ nodes) (member : k ∈ kids p) : k ∈ nodes :=
  (members.exactly k).mpr (((members.exactly p).mp inside).tail member)

theorem Enumerates.below (members : Enumerates kids root nodes) (inside : node ∈ nodes) (below : Below kids node k) :
    k ∈ nodes := by
  induction below with
  | refl => exact inside
  | tail _ member ih => exact members.kid ih member

/-- The nodes are closed under lists that hold no others, and each of them is reached. -/
theorem Enumerates.of_closed (distinct : nodes.Nodup) (rooted : root ∈ nodes)
    (closed : ∀ m ∈ nodes, ∀ k ∈ kids m, k ∈ nodes) (reached : ∀ n ∈ nodes, Below kids root n) :
    Enumerates kids root nodes := by
  refine ⟨distinct, fun n => ⟨reached n, fun below => ?_⟩⟩
  induction below with
  | refl => exact rooted
  | tail _ member ih => exact closed _ ih _ member

theorem Enumerates.congr (members : Enumerates kids root nodes) (same : ∀ n ∈ nodes, kids' n = kids n) :
    Enumerates kids' root nodes := by
  apply Enumerates.of_closed members.distinct members.top
  · intro m inside k member
    rw [same m inside] at member
    exact members.kid inside member
  · intro n inside
    have below := (members.exactly n).mp inside
    clear inside
    induction below with
    | refl => exact Relation.ReflTransGen.refl
    | @tail m k above member ih =>
        rw [← same m ((members.exactly m).mpr above)] at member
        exact ih.tail member

/-- A new leaf is one node more. -/
theorem Enumerates.grow (members : Enumerates kids root nodes) (grows : Grows kids kids' nodes p node)
    (inside : p ∈ nodes) : Enumerates kids' root (node :: nodes) := by
  obtain ⟨front, back, before, after⟩ := grows.here
  have more : ∀ m ∈ nodes, ∀ k ∈ kids m, k ∈ kids' m := by
    intro m isNode k member
    by_cases here : m = p
    · subst here
      rw [before, List.mem_append] at member
      rw [after, List.mem_append, List.mem_cons]
      exact member.imp_right Or.inr
    · rw [grows.others m isNode here]
      exact member
  have reached : ∀ n, Below kids root n → Below kids' root n := by
    intro n below
    induction below with
    | refl => exact Relation.ReflTransGen.refl
    | @tail m k above member ih => exact ih.tail (more m ((members.exactly m).mpr above) k member)
  apply Enumerates.of_closed
  · exact List.nodup_cons.mpr ⟨grows.fresh, members.distinct⟩
  · exact List.mem_cons_of_mem _ members.top
  · intro m isNode k member
    rcases List.mem_cons.mp isNode with rfl | old
    · rw [grows.leaf] at member
      cases member
    by_cases here : m = p
    · subst here
      rw [after, List.mem_append, List.mem_cons] at member
      rcases member with first | rfl | last
      · exact List.mem_cons_of_mem _ (members.kid old (before ▸ List.mem_append_left _ first))
      · exact List.mem_cons_self
      · exact List.mem_cons_of_mem _ (members.kid old (before ▸ List.mem_append_right _ last))
    · rw [grows.others m old here] at member
      exact List.mem_cons_of_mem _ (members.kid old member)
  · intro n isNode
    rcases List.mem_cons.mp isNode with rfl | old
    · apply (reached p ((members.exactly p).mp inside)).tail
      rw [after]
      simp
    · exact reached n ((members.exactly n).mp old)

/-- What is left are the nodes that were not below the one that was taken out. -/
theorem Enumerates.prune [DecidableEq α] (members : Enumerates kids root nodes) (prunes : Prunes kids kids' nodes p node gone)
    (single : Single kids nodes) (once : (kids p).Nodup) (inside : p ∈ nodes) (rootStays : root ∉ gone) :
    Enumerates kids' root (nodes.filter (· ∉ gone)) := by
  obtain ⟨front, back, before, after⟩ := prunes.here
  rw [before, List.nodup_middle, List.nodup_cons] at once
  have first : node ∈ gone := (prunes.exactly node).mpr Relation.ReflTransGen.refl
  have isKid : node ∈ kids p := by
    rw [before]
    simp
  have isNode := members.kid inside isKid
  have left : ∀ {n}, n ∈ nodes.filter (· ∉ gone) ↔ n ∈ nodes ∧ n ∉ gone := by
    intro n
    rw [List.mem_filter, decide_eq_true_iff]
  -- A node that goes is the one taken out, or its parent goes as well.
  have up : ∀ m ∈ nodes, ∀ k ∈ kids m, k ∈ gone → k = node ∨ m ∈ gone := by
    intro m isParent k member goes
    rcases Relation.ReflTransGen.cases_tail ((prunes.exactly k).mp goes) with same | ⟨q, above, inList⟩
    · exact Or.inl same
    · right
      rw [single m isParent q (members.below isNode above) k member inList]
      exact (prunes.exactly q).mpr above
  apply Enumerates.of_closed
  · exact members.distinct.filter _
  · exact left.mpr ⟨members.top, rootStays⟩
  · intro m stays k member
    obtain ⟨isOld, notGone⟩ := left.mp stays
    by_cases here : m = p
    · subst here
      rw [after] at member
      have inOld : k ∈ kids m := by
        rw [before, List.mem_append, List.mem_cons]
        exact (List.mem_append.mp member).imp_right Or.inr
      refine left.mpr ⟨members.kid isOld inOld, fun goes => ?_⟩
      rcases up m isOld k inOld goes with rfl | parentGoes
      · exact once.1 member
      · exact notGone parentGoes
    · rw [prunes.others m isOld here notGone] at member
      refine left.mpr ⟨members.kid isOld member, fun goes => ?_⟩
      rcases up m isOld k member goes with rfl | parentGoes
      · exact here (single m isOld p inside k member isKid)
      · exact notGone parentGoes
  · intro n stays
    obtain ⟨isOld, notGone⟩ := left.mp stays
    have below := (members.exactly n).mp isOld
    clear isOld stays
    induction below with
    | refl => exact Relation.ReflTransGen.refl
    | @tail m k above member ih =>
        have parentStays : m ∉ gone := fun goes =>
          notGone ((prunes.exactly k).mpr (((prunes.exactly m).mp goes).tail member))
        apply (ih parentStays).tail
        by_cases here : m = p
        · subst here
          have other : k ≠ node := fun same => notGone (same ▸ first)
          rw [before, List.mem_append, List.mem_cons] at member
          rw [after, List.mem_append]
          exact member.imp_right fun inRest => inRest.resolve_left other
        · rw [prunes.others m ((members.exactly m).mpr above) here parentStays]
          exact member

end Members

section Labels
variable [DecidableEq β] {label label' : α → β} {nodes gone : List α} {s : β}

/-- How many of the nodes have the label `s`. -/
def tally (label : α → β) (nodes : List α) (s : β) : Nat := (nodes.filter fun n => label n = s).length

theorem tally_congr (same : ∀ n ∈ nodes, label' n = label n) : tally label' nodes s = tally label nodes s := by
  unfold tally
  rw [List.filter_congr fun n member => by rw [same n member]]

theorem tally_cons (n : α) :
    tally label (n :: nodes) s = tally label nodes s + if label n = s then 1 else 0 := by
  unfold tally
  by_cases isIt : label n = s <;> simp [isIt]

/-- The nodes taken out and those left are all that there were. -/
theorem tally_prune [DecidableEq α] (label : α → β) (s : β) (distinct : nodes.Nodup) (distinct' : gone.Nodup) (within : ∀ n ∈ gone, n ∈ nodes) :
    tally label gone s + tally label (nodes.filter (· ∉ gone)) s = tally label nodes s := by
  have parts : (gone ++ nodes.filter (· ∉ gone)).Perm nodes := by
    rw [List.perm_ext_iff_of_nodup _ distinct]
    · intro n
      rw [List.mem_append, List.mem_filter, decide_eq_true_iff]
      by_cases goes : n ∈ gone
      · simp [goes, within n goes]
      · simp [goes]
    · rw [List.nodup_append]
      refine ⟨distinct', distinct.filter _, fun a goes b stays same => ?_⟩
      rw [List.mem_filter, decide_eq_true_iff] at stays
      exact stays.2 (same ▸ goes)
  unfold tally
  rw [← List.length_append, ← List.filter_append]
  exact (parts.filter _).length_eq

theorem tally_le (label : α → β) (nodes : List α) (s : β) : tally label nodes s ≤ nodes.length :=
  List.length_filter_le _ _

end Labels

end ChildLists
