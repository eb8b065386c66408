import Mathlib.Algebra.BigOperators.Group.Finset.Basic
import Mathlib.Algebra.BigOperators.Intervals
import Mathlib.Logic.Function.Basic

/-! A text under edits whose places are given in the original text. The buffer maps them
through the lengths of what has been inserted, so that insertions at one place come out in
the order in which they were made. -/
namespace Edits

variable {A : Type*}

structure Buffer (A : Type*) where
  text : List A
  deltas : List (Nat × Nat)

def Buffer.new (orig : List A) : Buffer A := ⟨orig, []⟩

namespace Buffer

/-- How far the original place `off` has moved, behind what is inserted there. -/
def delta (b : Buffer A) (off : Nat) : Nat :=
  ((b.deltas.filter fun d => d.1 ≤ off).map Prod.snd).sum

/-- `none` is an insertion past the end. -/
def insertAfter (b : Buffer A) (off : Nat) (s : List A) : Option (Buffer A) :=
  let real := off + b.delta off
  if real ≤ b.text.length then
    some ⟨b.text.take real ++ (s ++ b.text.drop real), (off, s.length) :: b.deltas⟩
  else none

end Buffer

/-- The original text with `ins i` in front of its element `i`. -/
def weave : (Nat → List A) → List A → List A
  | ins, [] => ins 0
  | ins, a :: orig => ins 0 ++ a :: weave (fun i => ins (i + 1)) orig

/-- What a list of edits inserts at `i`. -/
def insertions (edits : List (Nat × List A)) (i : Nat) : List A :=
  (edits.filter fun e => e.1 = i).flatMap Prod.snd

def Buffer.insertAll (b : Buffer A) (edits : List (Nat × List A)) : Option (Buffer A) :=
  edits.foldlM (fun b e => b.insertAfter e.1 e.2) b

variable {orig s : List A} {ins : Nat → List A} {b b' : Buffer A} {off : Nat}

/-- Where the original place `off` is in the woven text, behind what is inserted there. -/
def place (ins : Nat → List A) (off : Nat) : Nat :=
  off + ∑ i ∈ Finset.range (off + 1), (ins i).length

theorem place_succ (ins : Nat → List A) (off : Nat) :
    place ins (off + 1) = (ins 0).length + 1 + place (fun i => ins (i + 1)) off := by
  simp only [place, Finset.sum_range_succ' (fun i => (ins i).length) (off + 1)]
  omega

theorem weave_insert (ins : Nat → List A) (orig s : List A) (off : Nat) (le : off ≤ orig.length) :
    place ins off ≤ (weave ins orig).length ∧
    (weave ins orig).take (place ins off) ++ (s ++ (weave ins orig).drop (place ins off)) =
      weave (Function.update ins off (ins off ++ s)) orig := by
  induction off generalizing ins orig with
  | zero =>
    have here : place ins 0 = (ins 0).length := by simp [place]
    have others : (fun i => Function.update ins 0 (ins 0 ++ s) (i + 1)) = fun i => ins (i + 1) := by
      funext i
      simp
    rw [here]
    cases orig with
    | nil => simp [weave]
    | cons a orig =>
      simp only [weave, others]
      simp
  | succ off ih =>
    cases orig with
    | nil => simp at le
    | cons a orig =>
      obtain ⟨fits, same⟩ := ih (fun i => ins (i + 1)) orig (by simpa using le)
      have others : (fun i => Function.update ins (off + 1) (ins (off + 1) ++ s) (i + 1)) =
          Function.update (fun i => ins (i + 1)) off (ins (off + 1) ++ s) := by
        funext i
        by_cases h : i = off <;> simp [h]
      have first : Function.update ins (off + 1) (ins (off + 1) ++ s) 0 = ins 0 := by simp
      rw [place_succ]
      constructor
      · simp only [weave, List.length_append, List.length_cons]
        omega
      · simp only [weave, first, others, ← same]
        rw [show (ins 0).length + 1 + place (fun i => ins (i + 1)) off =
          (ins 0).length + (1 + place (fun i => ins (i + 1)) off) by omega]
        rw [List.take_length_add_append, List.drop_length_add_append, Nat.add_comm 1,
          List.take_succ_cons, List.drop_succ_cons, List.append_assoc, List.cons_append]

/-- The buffer holds the original text with these insertions. -/
structure Weaves (orig : List A) (ins : Nat → List A) (b : Buffer A) : Prop where
  text : b.text = weave ins orig
  delta : ∀ off, off + b.delta off = place ins off

theorem Weaves.new (orig : List A) : Weaves orig (fun _ => []) (Buffer.new orig) where
  text := by
    induction orig with
    | nil => rfl
    | cons a orig ih => exact congrArg (a :: ·) ih
  delta := by simp [place, Buffer.delta, Buffer.new]

theorem Weaves.insertAfter (h : Weaves orig ins b) (s : List A) (le : off ≤ orig.length) :
    ∃ b', b.insertAfter off s = some b' ∧
      Weaves orig (Function.update ins off (ins off ++ s)) b' := by
  obtain ⟨fits, same⟩ := weave_insert ins orig s off le
  have step : b.insertAfter off s =
      some ⟨weave (Function.update ins off (ins off ++ s)) orig, (off, s.length) :: b.deltas⟩ := by
    simp only [Buffer.insertAfter, h.delta, h.text, if_pos fits, same]
  refine ⟨_, step, rfl, ?_⟩
  · intro k
    have old := h.delta k
    simp only [place, Buffer.delta] at old ⊢
    by_cases before : off ≤ k
    · have mem : off ∈ Finset.range (k + 1) := Finset.mem_range.mpr (by omega)
      have lengths : (fun i => (Function.update ins off (ins off ++ s) i).length) =
          fun i => (ins i).length + if i = off then s.length else 0 := by
        funext i
        by_cases h : i = off <;> simp [h]
      rw [List.filter_cons_of_pos (by simpa using before), lengths, Finset.sum_add_distrib,
        Finset.sum_ite_eq' _ off, if_pos mem]
      simp only [List.map_cons, List.sum_cons]
      omega
    · rw [List.filter_cons_of_neg (by simpa using before), old]
      congr 1
      apply Finset.sum_congr rfl
      intro i mem
      have ne : i ≠ off := by
        have := Finset.mem_range.mp mem
        omega
      simp [ne]

theorem insertions_append_singleton (edits : List (Nat × List A)) (e : Nat × List A) :
    insertions (edits ++ [e]) =
      Function.update (insertions edits) e.1 (insertions edits e.1 ++ e.2) := by
  funext i
  by_cases h : i = e.1
  · subst h
    simp [insertions, List.filter_append]
  · simp [insertions, List.filter_append, h, Ne.symm h]

/-- A run of insertions never fails inside the text, and weaves them in. -/
theorem weaves_run (orig : List A) (edits : List (Nat × List A))
    (le : ∀ e ∈ edits, e.1 ≤ orig.length) :
    ∃ b, (Buffer.new orig).insertAll edits = some b ∧ Weaves orig (insertions edits) b := by
  induction edits using List.reverseRecOn with
  | nil => exact ⟨_, rfl, Weaves.new orig⟩
  | append_singleton edits e ih =>
    obtain ⟨b, run, h⟩ := ih fun e' mem => le e' (List.mem_append_left _ mem)
    obtain ⟨b', step, h'⟩ := h.insertAfter e.2 (le e (by simp))
    refine ⟨b', ?_, insertions_append_singleton edits e ▸ h'⟩
    simp only [Buffer.insertAll, List.foldlM_append, List.foldlM_cons, List.foldlM_nil] at run ⊢
    simp [run, step]

/-! ## Texts in parts -/

/-- A piece of the original text, or one to be inserted. -/
inductive Chunk (A : Type*) where
  | orig (as : List A)
  | ins (as : List A)

namespace Chunk

def original : List (Chunk A) → List A
  | [] => []
  | .orig as :: ps => as ++ original ps
  | .ins _ :: ps => original ps

def result : List (Chunk A) → List A
  | [] => []
  | .orig as :: ps | .ins as :: ps => as ++ result ps

/-- The insertions, for an original text that starts at `off`. -/
def edits : Nat → List (Chunk A) → List (Nat × List A)
  | _, [] => []
  | off, .orig as :: ps => edits (off + as.length) ps
  | off, .ins as :: ps => (off, as) :: edits off ps

theorem original_append (ps qs : List (Chunk A)) :
    original (ps ++ qs) = original ps ++ original qs := by
  induction ps with
  | nil => rfl
  | cons p ps ih => cases p <;> simp [original, ih]

theorem result_append (ps qs : List (Chunk A)) : result (ps ++ qs) = result ps ++ result qs := by
  induction ps with
  | nil => rfl
  | cons p ps ih => cases p <;> simp [result, ih]

theorem edits_append (ps qs : List (Chunk A)) (off : Nat) :
    edits off (ps ++ qs) = edits off ps ++ edits (off + (original ps).length) qs := by
  induction ps generalizing off with
  | nil => rfl
  | cons p ps ih => cases p <;> simp [edits, original, ih, Nat.add_assoc]

theorem edits_inside {ps : List (Chunk A)} {off : Nat} :
    ∀ e ∈ edits off ps, off ≤ e.1 ∧ e.1 ≤ off + (original ps).length := by
  induction ps generalizing off with
  | nil => simp [edits]
  | cons p ps ih =>
    cases p with
    | orig as =>
      intro e mem
      have := ih e mem
      simp only [original, List.length_append]
      omega
    | ins as =>
      intro e mem
      rcases List.mem_cons.mp mem with rfl | mem
      · simp
      · exact ih e mem

end Chunk

theorem insertions_cons (e : Nat × List A) (edits : List (Nat × List A)) (i : Nat) :
    insertions (e :: edits) i = (if e.1 = i then e.2 else []) ++ insertions edits i := by
  by_cases h : e.1 = i <;> simp [insertions, h]

theorem insertions_append (edits edits' : List (Nat × List A)) (i : Nat) :
    insertions (edits ++ edits') i = insertions edits i ++ insertions edits' i := by
  simp [insertions, List.filter_append]

theorem insertions_none {edits : List (Nat × List A)} {i : Nat} (none : ∀ e ∈ edits, e.1 ≠ i) :
    insertions edits i = [] := by
  have away : edits.filter (fun e => e.1 = i) = [] :=
    List.filter_eq_nil_iff.mpr fun e mem => by simpa using none e mem
  rw [insertions, away, List.flatMap_nil]

/-- Nothing is inserted in front of some text, or inside it. -/
theorem weave_pass (as orig : List A) (ins : Nat → List A) (none : ∀ i < as.length, ins i = []) :
    weave ins (as ++ orig) = as ++ weave (fun i => ins (as.length + i)) orig := by
  induction as generalizing ins with
  | nil => simp
  | cons a as ih =>
    have first : ins 0 = [] := none 0 (by simp)
    have shift : (fun i => ins ((a :: as).length + i)) = fun i => ins (as.length + i + 1) := by
      funext i
      rw [List.length_cons, Nat.add_right_comm]
    rw [List.cons_append, weave, first, shift, List.nil_append,
      ih (fun i => ins (i + 1)) fun i lt => none (i + 1) (by simpa using lt), List.cons_append]

theorem weave_segment {as : List A} (orig : List A) (ins : Nat → List A) (ne : as ≠ [])
    (none : ∀ i, 0 < i → i < as.length → ins i = []) :
    weave ins (as ++ orig) = ins 0 ++ (as ++ weave (fun i => ins (as.length + i)) orig) := by
  obtain ⟨a, as, rfl⟩ := List.exists_cons_of_ne_nil ne
  have later := weave_pass as orig (fun i => ins (i + 1)) fun i lt =>
    none (i + 1) (Nat.succ_pos i) (Nat.succ_lt_succ lt)
  have shift : (fun i => ins (as.length + i + 1)) = fun i => ins ((a :: as).length + i) := by
    funext i
    rw [List.length_cons, Nat.add_right_comm]
  rw [List.cons_append, weave, later, shift, List.cons_append]

theorem weave_front (front orig : List A) (ins : Nat → List A) :
    weave (fun i => (if i = 0 then front else []) ++ ins i) orig = front ++ weave ins orig := by
  cases orig <;> simp [weave]

/-- The edits of the parts weave in what is to be inserted. -/
theorem weave_edits (ps : List (Chunk A)) (off : Nat) :
    weave (fun i => insertions (Chunk.edits off ps) (off + i)) (Chunk.original ps) =
      Chunk.result ps := by
  induction ps generalizing off with
  | nil => rfl
  | cons p ps ih =>
    cases p with
    | orig as =>
      have later : ∀ i < as.length, insertions (Chunk.edits (off + as.length) ps) (off + i) = [] := by
        intro i lt
        apply insertions_none
        intro e mem
        have := (Chunk.edits_inside e mem).1
        omega
      simp only [Chunk.edits, Chunk.original, Chunk.result]
      rw [weave_pass as _ _ later, ← ih (off + as.length)]
      simp only [Nat.add_assoc]
    | ins as =>
      have here : (fun i => insertions (Chunk.edits off (.ins as :: ps)) (off + i)) =
          fun i => (if i = 0 then as else []) ++ insertions (Chunk.edits off ps) (off + i) := by
        funext i
        simp only [Chunk.edits, insertions_cons, Nat.left_eq_add]
      rw [here, Chunk.original, weave_front, ih off, Chunk.result]

/-- Groups of edits at different places can be made in any order. -/
theorem insertions_perm {groups groups' : List (List (Nat × List A))} (perm : groups.Perm groups')
    (apart : groups.Pairwise fun g h => ∀ e ∈ g, ∀ e' ∈ h, e.1 ≠ e'.1) :
    insertions groups.flatten = insertions groups'.flatten := by
  induction perm with
  | nil => rfl
  | cons g _ ih =>
    funext i
    simp only [List.flatten_cons, insertions_append, ih (List.pairwise_cons.mp apart).2]
  | swap g h groups =>
    funext i
    simp only [List.flatten_cons, insertions_append, ← List.append_assoc]
    congr 1
    by_cases touched : ∃ e ∈ h, e.1 = i
    · obtain ⟨e, mem, rfl⟩ := touched
      have first := (List.pairwise_cons.mp apart).1 g List.mem_cons_self
      have other : insertions g e.1 = [] :=
        insertions_none fun e' mem' => Ne.symm (first e mem e' mem')
      simp [other]
    · have other : insertions h i = [] :=
        insertions_none fun e mem same => touched ⟨e, mem, same⟩
      simp [other]
  | trans perm _ ih ih' =>
    have symm : ∀ {g h : List (Nat × List A)}, (∀ e ∈ g, ∀ e' ∈ h, e.1 ≠ e'.1) →
        ∀ e ∈ h, ∀ e' ∈ g, e.1 ≠ e'.1 := fun apart e mem e' mem' => (apart e' mem' e mem).symm
    exact (ih apart).trans (ih' ((perm.pairwise_iff symm).mp apart))

theorem weave_length (ins : Nat → List A) (orig : List A) :
    (weave ins orig).length = place ins orig.length := by
  induction orig generalizing ins with
  | nil => simp [weave, place]
  | cons a orig ih =>
    rw [List.length_cons, place_succ, ← ih, weave, List.length_append, List.length_cons]
    omega

theorem place_lt (ins : Nat → List A) (off : Nat) : place ins off < place ins (off + 1) := by
  unfold place
  rw [Finset.sum_range_succ (fun i => (ins i).length) (off + 1)]
  omega

/-- Behind the end of the original text nothing can be inserted. -/
theorem Weaves.insertAfter_outside (h : Weaves orig ins b) (s : List A)
    (outside : orig.length < off) : b.insertAfter off s = none := by
  have beyond : place ins orig.length < place ins off := by
    induction outside with
    | refl => exact place_lt ins _
    | step _ ih => exact Nat.lt_trans ih (place_lt ins _)
  have past : ¬ place ins off ≤ (weave ins orig).length := by
    rw [weave_length]
    exact Nat.not_le_of_lt beyond
  simp only [Buffer.insertAfter, h.delta, h.text, if_neg past]

theorem insertAfter_length (h : b.insertAfter off s = some b') :
    b'.text.length = b.text.length + s.length := by
  simp only [Buffer.insertAfter] at h
  split at h
  · cases h
    simp only [List.length_append, List.length_take, List.length_drop]
    omega
  · contradiction

end Edits
