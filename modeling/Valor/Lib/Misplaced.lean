import Mathlib.Data.Set.Finite.Lemmas
import Valor.Lib.EditBuffer

/-! Edits that are made too early in the text, and edits that should not be made at all: what
comes out tells them from those that are meant. -/
namespace Edits

variable {A : Type*} {orig as s : List A} {ins ins' : Nat → List A} {a : A}

/-- Edits only add what they insert. -/
theorem weave_perm (orig : List A) {edits : List (Nat × List A)}
    (inside : ∀ e ∈ edits, e.1 ≤ orig.length) :
    (weave (insertions edits) orig).Perm (orig ++ edits.flatMap Prod.snd) := by
  induction edits using List.reverseRecOn with
  | nil =>
    have none : insertions ([] : List (Nat × List A)) = fun _ => [] := rfl
    rw [none, ← (Weaves.new orig).text, List.flatMap_nil, List.append_nil]
    exact List.Perm.refl _
  | append_singleton edits e ih =>
    have before := ih fun e' mem => inside e' (List.mem_append_left _ mem)
    obtain ⟨_, same⟩ := weave_insert (insertions edits) orig e.2 e.1 (inside e (by simp))
    rw [insertions_append_singleton, ← same, List.flatMap_append, ← List.append_assoc orig]
    simp only [List.flatMap_cons, List.flatMap_nil, List.append_nil]
    refine List.Perm.trans ?_ (before.append_right e.2)
    conv_rhs => rw [← List.take_append_drop (place (insertions edits) e.1) (weave _ orig)]
    rw [List.append_assoc]
    exact List.perm_append_comm.append_left _

/-! ## The last difference -/

/-- The text up to the end of `orig`, with `ins i` in front of its element `i`. -/
def wovenBefore : (Nat → List A) → List A → List A
  | _, [] => []
  | ins, a :: orig => ins 0 ++ a :: wovenBefore (fun i => ins (i + 1)) orig

theorem weave_append (ins : Nat → List A) (as orig : List A) :
    weave ins (as ++ orig) = wovenBefore ins as ++ weave (fun i => ins (as.length + i)) orig := by
  induction as generalizing ins with
  | nil => simp [wovenBefore]
  | cons a as ih =>
    have shift : (fun i => ins ((a :: as).length + i)) = fun i => ins (as.length + i + 1) := by
      funext i
      rw [List.length_cons, Nat.add_right_comm]
    rw [List.cons_append, weave, wovenBefore, ih, shift, List.append_assoc, List.cons_append]

theorem wovenBefore_getLast (ins : Nat → List A) (as : List A) (a : A) :
    (wovenBefore ins (as ++ [a])).getLast? = some a := by
  induction as generalizing ins with
  | nil => simp [wovenBefore]
  | cons b as ih =>
    rw [List.cons_append, wovenBefore, List.getLast?_append, List.getLast?_cons, ih]
    rfl

/-- Text that is not inserted behind `a` is missed, if all that follows is the same and it does
not end as the text in front of its place does. -/
theorem weave_missing {back : List A} (some' : s ≠ []) (last : s.getLast? ≠ some a)
    (here : ins' (as.length + 1) = s ++ ins (as.length + 1))
    (later : ∀ i, as.length + 1 < i → ins' i = ins i) :
    weave ins (as ++ a :: back) ≠ weave ins' (as ++ a :: back) := by
  intro same
  have split : as ++ a :: back = (as ++ [a]) ++ back := by simp
  have behind : (fun i => ins' ((as ++ [a]).length + i)) = fun i =>
      (if i = 0 then s else []) ++ ins ((as ++ [a]).length + i) := by
    funext i
    rw [List.length_append, List.length_singleton]
    cases i with
    | zero => exact here
    | succ i => exact later _ (by omega)
  rw [split, weave_append, weave_append, behind, weave_front, ← List.append_assoc] at same
  have front := List.append_cancel_right same
  have ends := congrArg List.getLast? front
  rw [wovenBefore_getLast, List.getLast?_append_of_ne_nil _ some'] at ends
  exact last ends.symm

/-- An edit as it is made, and as it is meant. -/
structure Placing (A : Type*) where
  made : Nat × List A
  meant : Nat × List A

namespace Placing

variable {ms : List (Placing A)} {m : Placing A} {i : Nat}

def Early (m : Placing A) : Prop := m.made.1 < m.meant.1

theorem insertions_same (same : ∀ m ∈ ms, m.made.1 = i ∨ m.meant.1 = i → m.made = m.meant) :
    insertions (ms.map made) i = insertions (ms.map meant) i := by
  induction ms with
  | nil => rfl
  | cons m ms ih =>
    have rest := ih fun m mem => same m (List.mem_cons_of_mem _ mem)
    rw [List.map_cons, List.map_cons, insertions_cons, insertions_cons, rest]
    by_cases touched : m.made.1 = i ∨ m.meant.1 = i
    · rw [same m List.mem_cons_self touched]
    · rw [not_or] at touched
      rw [if_neg touched.1, if_neg touched.2]

/-- Edits are made early in no text that comes out as it is meant. -/
theorem none_early (early : ∀ m ∈ ms, m.made = m.meant ∨ m.Early)
    (apart : ms.Pairwise fun m n => n.Early → m.meant.1 ≠ n.meant.1)
    (ends : ∀ m ∈ ms, m.Early → m.meant.2 ≠ [] ∧
      ∃ as a back, orig = as ++ a :: back ∧ m.meant.1 = as.length + 1 ∧ m.meant.2.getLast? ≠ some a)
    (same : weave (insertions (ms.map made)) orig = weave (insertions (ms.map meant)) orig) :
    ∀ m ∈ ms, m.made = m.meant := by
  by_contra some'
  have moved : ∃ m ∈ ms, m.Early := by
    push Not at some'
    obtain ⟨m, mem, differs⟩ := some'
    exact ⟨m, mem, (early m mem).resolve_left differs⟩
  -- Of the early edits, the one that is meant to be last.
  obtain ⟨m, ⟨mem, here⟩, last⟩ := Set.exists_max_image {m | m ∈ ms ∧ m.Early}
    (fun m => m.meant.1) (ms.finite_toSet.subset fun _ h => h.1) moved
  have after : ∀ n ∈ ms, ∀ i, m.meant.1 ≤ i → (n.Early → n.meant.1 ≠ i) →
      n.made.1 = i ∨ n.meant.1 = i → n.made = n.meant := by
    intro n mem' i le other at'
    refine (early n mem').resolve_right fun moved => ?_
    have := last n ⟨mem', moved⟩
    have := other moved
    unfold Early at moved
    omega
  obtain ⟨pre, post, rfl⟩ := List.append_of_mem mem
  obtain ⟨_, behind, before⟩ := List.pairwise_append.mp apart
  have ahead : ∀ n ∈ pre, n.meant.1 ≠ m.meant.1 := fun n hn => before n hn m List.mem_cons_self here
  have alone := (List.pairwise_cons.mp behind).1
  obtain ⟨some', as, a, back, rfl, place, end'⟩ := ends m mem here
  refine weave_missing some' end' ?_ (fun i lt => ?_) same
  · rw [← place, List.map_append, List.map_append, List.map_cons, List.map_cons]
    have skipped : insertions (pre.map made) m.meant.1 = [] ∧
        insertions (pre.map meant) m.meant.1 = [] := by
      have same := insertions_same (i := m.meant.1) fun n hn =>
        after n (List.mem_append_left _ hn) m.meant.1 (Nat.le_refl _) fun _ => ahead n hn
      have none : insertions (pre.map meant) m.meant.1 = [] := by
        apply insertions_none
        intro e listed
        obtain ⟨n, hn, rfl⟩ := List.mem_map.mp listed
        exact ahead n hn
      exact ⟨same.trans none, none⟩
    have rest := insertions_same (i := m.meant.1) fun n (hn : n ∈ post) =>
      after n (List.mem_append_right _ (List.mem_cons_of_mem _ hn)) m.meant.1 (Nat.le_refl _)
        fun moved => Ne.symm (alone n hn moved)
    rw [insertions_append, insertions_append, insertions_cons, insertions_cons, skipped.1,
      skipped.2, rest, if_pos rfl, if_neg (Nat.ne_of_lt here)]
    rfl
  · refine (insertions_same fun n hn => after n hn i (by omega) fun moved => ?_).symm
    have := last n ⟨hn, moved⟩
    omega

end Placing

end Edits
