import Mathlib.Data.List.Perm.Basic
import Valor.Lib.EditBuffer

/-! Groups of edits made in any order. What comes out depends on the order exactly when two
groups insert at one place texts that do not commute. -/
namespace Edits

variable {A C : Type*}

/-- Texts that commute can be joined in any order. -/
theorem flatMap_perm {f : C → List A} {l l' : List C} (perm : l'.Perm l)
    (commute : l.Pairwise fun a b => f a ++ f b = f b ++ f a) : l'.flatMap f = l.flatMap f := by
  have symm : ∀ {a b : C}, f a ++ f b = f b ++ f a → f b ++ f a = f a ++ f b := fun h => h.symm
  induction perm with
  | nil => rfl
  | cons a _ ih =>
    simp only [List.flatMap_cons, ih (List.pairwise_cons.mp commute).2]
  | swap a b l =>
    have pair := (List.pairwise_cons.mp commute).1 b List.mem_cons_self
    simp only [List.flatMap_cons, ← List.append_assoc, pair]
  | trans _ perm ih ih' =>
    have before := (perm.pairwise_iff symm).mpr commute
    exact (ih before).trans (ih' commute)

theorem flatMap_perm_iff (f : C → List A) (l : List C) :
    (∀ l' : List C, l'.Perm l → l'.flatMap f = l.flatMap f) ↔
      l.Pairwise fun a b => f a ++ f b = f b ++ f a := by
  constructor
  · intro same
    apply List.pairwise_iff_forall_sublist.mpr
    intro a b sub
    obtain ⟨rest, perm⟩ := sub.exists_perm_append
    have first := same (a :: b :: rest) perm.symm
    have second := same (b :: a :: rest) ((List.Perm.swap a b rest).trans perm.symm)
    have both := first.trans second.symm
    simp only [List.flatMap_cons, ← List.append_assoc] at both
    exact List.append_cancel_right both
  · intro commute l' perm
    exact flatMap_perm perm commute

/-- Insertions of the same lengths can be read off the woven text. -/
theorem weave_inj {ins ins' : Nat → List A} {orig : List A}
    (lengths : ∀ i, (ins i).length = (ins' i).length) :
    weave ins orig = weave ins' orig ↔ ∀ i ≤ orig.length, ins i = ins' i := by
  induction orig generalizing ins ins' with
  | nil => simp [weave]
  | cons a orig ih =>
    have later := @ih (fun i => ins (i + 1)) (fun i => ins' (i + 1)) fun i => lengths (i + 1)
    simp only [weave]
    constructor
    · intro same
      obtain ⟨first, rest⟩ := List.append_inj same (lengths 0)
      intro i le
      cases i with
      | zero => exact first
      | succ i =>
        have tail := List.tail_eq_of_cons_eq rest
        exact later.mp tail i (Nat.le_of_succ_le_succ le)
    · intro same
      have tail := later.mpr fun i le => same (i + 1) (Nat.succ_le_succ le)
      rw [same 0 (Nat.zero_le _), tail]

theorem insertions_flatMap (g : C → List (Nat × List A)) (l : List C) (i : Nat) :
    insertions (l.flatMap g) i = l.flatMap fun a => insertions (g a) i := by
  induction l with
  | nil => rfl
  | cons a l ih => simp only [List.flatMap_cons, insertions_append, ih]

theorem insertions_length (g : C → List (Nat × List A)) {l l' : List C} (perm : l'.Perm l)
    (i : Nat) : (insertions (l'.flatMap g) i).length = (insertions (l.flatMap g) i).length := by
  have all := perm.flatMap_right g
  unfold insertions
  exact ((all.filter _).flatMap_right _).length_eq

/-- The groups weave in the same text in every order just when any two of them commute at
every place. -/
theorem weave_any_order_iff (g : C → List (Nat × List A)) (l : List C) (orig : List A) :
    (∀ l' : List C, l'.Perm l →
        weave (insertions (l'.flatMap g)) orig = weave (insertions (l.flatMap g)) orig) ↔
      l.Pairwise fun a b => ∀ i ≤ orig.length,
        insertions (g a) i ++ insertions (g b) i = insertions (g b) i ++ insertions (g a) i := by
  have places : (∀ l' : List C, l'.Perm l →
      weave (insertions (l'.flatMap g)) orig = weave (insertions (l.flatMap g)) orig) ↔
      ∀ i ≤ orig.length, ∀ l' : List C, l'.Perm l →
        l'.flatMap (fun a => insertions (g a) i) = l.flatMap fun a => insertions (g a) i := by
    constructor
    · intro same i le l' perm
      rw [← insertions_flatMap, ← insertions_flatMap]
      exact (weave_inj (insertions_length g perm)).mp (same l' perm) i le
    · intro same l' perm
      apply (weave_inj (insertions_length g perm)).mpr
      intro i le
      rw [insertions_flatMap, insertions_flatMap]
      exact same i le l' perm
  rw [places]
  simp only [flatMap_perm_iff, List.pairwise_iff_forall_sublist]
  constructor
  · intro commute a b sub i le
    exact commute i le sub
  · intro commute i le a b sub
    exact commute sub i le

/-- Of a list some elements of which say nothing, what the others say comes in every order. -/
theorem exists_order (f : C → A) (p : A → Bool) {l : List C} {order : List A}
    (perm : order.Perm ((l.map f).filter p)) :
    ∃ l' : List C, l'.Perm l ∧ (l'.map f).filter p = order := by
  rw [List.filter_map] at perm
  have orders := congrFun (congrFun (List.eq_map_comp_perm f) order) (l.filter (p ∘ f))
  obtain ⟨own, rfl, same⟩ := orders.mpr perm
  refine ⟨own ++ l.filter fun c => !(p ∘ f) c,
    (same.append_right _).trans (List.filter_append_perm _ l), ?_⟩
  have said : own.filter (p ∘ f) = own := by
    apply List.filter_eq_self.mpr
    intro c mem
    exact (List.mem_filter.mp (same.mem_iff.mp mem)).2
  have silent : (l.filter fun c => !(p ∘ f) c).filter (p ∘ f) = [] := by
    apply List.filter_eq_nil_iff.mpr
    intro c mem here
    have none := (List.mem_filter.mp mem).2
    rw [here] at none
    contradiction
  rw [List.filter_map, List.filter_append, said, silent, List.append_nil]

end Edits
