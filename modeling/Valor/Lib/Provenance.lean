import Valor.Lib.EditBuffer

/-! Texts whose elements know where they come from. An edit does not look at the elements,
so a marked text is edited as the text itself is. -/
namespace Edits

variable {A B : Type*} {orig s : List A} {ins : Nat → List A} {b : Buffer A} {off : Nat}

/-- An element of the original text at `place`, or one that is inserted there. -/
structure Mark (A : Type*) where
  value : A
  place : Nat
  inserted : Bool

def Buffer.map (g : A → B) (b : Buffer A) : Buffer B := ⟨b.text.map g, b.deltas⟩

theorem insertAfter_map (g : A → B) (b : Buffer A) (off : Nat) (s : List A) :
    (b.map g).insertAfter off (s.map g) = (b.insertAfter off s).map (Buffer.map g) := by
  have real : off + (b.map g).delta off = off + b.delta off := rfl
  have length : (b.map g).text.length = b.text.length := List.length_map g
  unfold Buffer.insertAfter
  simp only [real, length]
  split
  · simp [Buffer.map, List.map_take, List.map_drop]
  · rfl

theorem insertAll_map (g : A → B) (edits : List (Nat × List A)) (b : Buffer A) :
    (b.map g).insertAll (edits.map fun e => (e.1, e.2.map g)) =
      (b.insertAll edits).map (Buffer.map g) := by
  induction edits generalizing b with
  | nil => rfl
  | cons e edits ih =>
    simp only [Buffer.insertAll] at ih
    simp only [Buffer.insertAll, List.map_cons, List.foldlM_cons, insertAfter_map,
      Option.bind_eq_bind]
    cases b.insertAfter e.1 e.2 with
    | none => rfl
    | some b' => exact ih b'

namespace Mark

def original (text : List A) : List (Mark A) := text.mapIdx fun i a => ⟨a, i, false⟩

def edit (e : Nat × List A) : Nat × List (Mark A) := (e.1, e.2.map fun a => ⟨a, e.1, true⟩)

/-- What is kept of a text by the places and the origin of its elements. -/
def part (keep : Nat → Bool → Bool) (marks : List (Mark A)) : List A :=
  (marks.filter fun m => keep m.place m.inserted).map value

theorem value_original (text : List A) : (original text).map value = text := by
  apply List.ext_getElem
  · simp [original]
  · intro i h h'
    simp [original]

theorem value_edit (e : Nat × List A) : ((edit e).1, (edit e).2.map value) = e := by
  simp [edit, Function.comp_def]

/-- The run on the marked text, erased, is the run on the text. -/
theorem insertAll_value (edits : List (Nat × List A)) (text : List A) :
    ((Buffer.new (original text)).insertAll (edits.map edit)).map (Buffer.map value) =
      (Buffer.new text).insertAll edits := by
  have erased : (edits.map edit).map (fun e => (e.1, e.2.map value)) = edits := by
    rw [List.map_map]
    exact List.map_id'' value_edit edits
  have new : (Buffer.new (original text)).map value = Buffer.new text := by
    simp only [Buffer.map, Buffer.new, value_original]
  rw [← insertAll_map, erased, new]

end Mark

/-! ## Parts of a text that stay as they are -/

theorem weave_sublist (ins : Nat → List A) (orig : List A) : orig.Sublist (weave ins orig) := by
  induction orig generalizing ins with
  | nil => exact List.nil_sublist _
  | cons a orig ih => exact ((ih _).cons_cons a).trans (List.sublist_append_right _ _)

theorem filter_weave_length (P : A → Bool) (ins : Nat → List A) (orig : List A) :
    ((weave ins orig).filter P).length = (orig.filter P).length +
      ∑ i ∈ Finset.range (orig.length + 1), ((ins i).filter P).length := by
  induction orig generalizing ins with
  | nil => simp [weave]
  | cons a orig ih =>
    have later := ih fun i => ins (i + 1)
    rw [List.length_cons, Finset.sum_range_succ' _ (orig.length + 1)]
    simp only [weave, List.filter_append, List.length_append, List.filter_cons]
    split
    · simp only [List.length_cons, later]
      omega
    · rw [later]
      omega

/-- What is filtered out of a woven text is as before just when nothing inserted is in it. -/
theorem filter_weave_iff (P : A → Bool) (g : A → B) :
    ((weave ins orig).filter P).map g = (orig.filter P).map g ↔
      ∀ i ≤ orig.length, ∀ a ∈ ins i, P a = false := by
  have lengths := filter_weave_length P ins orig
  constructor
  · intro same i le a mem
    have length := congrArg List.length same
    rw [List.length_map, List.length_map, lengths] at length
    have none : ∑ i ∈ Finset.range (orig.length + 1), ((ins i).filter P).length = 0 := by omega
    have here := Finset.sum_eq_zero_iff.mp none i (Finset.mem_range.mpr (Nat.lt_succ_of_le le))
    simpa using List.filter_eq_nil_iff.mp (List.eq_nil_of_length_eq_zero here) a mem
  · intro none
    have zero : ∑ i ∈ Finset.range (orig.length + 1), ((ins i).filter P).length = 0 := by
      apply Finset.sum_eq_zero
      intro i mem
      have le := Nat.le_of_lt_succ (Finset.mem_range.mp mem)
      rw [List.filter_eq_nil_iff.mpr fun a here => by simp [none i le a here], List.length_nil]
    have sub := (weave_sublist ins orig).filter P
    rw [sub.eq_of_length (by omega)]

/-- A part of an edited text is as before just when no edit is made in it. -/
theorem part_same_iff {text : List A} {edits : List (Nat × List A)} {b : Buffer (Mark A)}
    (run : (Buffer.new (Mark.original text)).insertAll (edits.map Mark.edit) = some b)
    (inside : ∀ e ∈ edits, e.1 ≤ text.length) (some' : ∀ e ∈ edits, e.2 ≠ [])
    (keep : Nat → Bool → Bool) :
    Mark.part keep b.text = Mark.part keep (Mark.original text) ↔
      ∀ e ∈ edits, keep e.1 true = false := by
  have length : (Mark.original text).length = text.length := by simp [Mark.original]
  obtain ⟨b', run', woven⟩ := weaves_run (Mark.original text) (edits.map Mark.edit) fun e mem => by
    obtain ⟨e, here, rfl⟩ := List.mem_map.mp mem
    exact length ▸ inside e here
  cases Option.some.inj (run.symm.trans run')
  have marked : ∀ e ∈ edits, ∀ a ∈ e.2,
      (⟨a, e.1, true⟩ : Mark A) ∈ insertions (edits.map Mark.edit) e.1 := by
    intro e mem a own
    apply List.mem_flatMap.mpr
    refine ⟨Mark.edit e, List.mem_filter.mpr ⟨List.mem_map_of_mem mem, by simp [Mark.edit]⟩, ?_⟩
    exact List.mem_map_of_mem own
  rw [Mark.part, Mark.part, woven.text, filter_weave_iff, length]
  constructor
  · intro none e mem
    obtain ⟨a, own⟩ := List.exists_mem_of_ne_nil _ (some' e mem)
    exact none e.1 (inside e mem) _ (marked e mem a own)
  · intro none i _ m mem
    obtain ⟨e', here, own⟩ := List.mem_flatMap.mp mem
    obtain ⟨e, listed, rfl⟩ := List.mem_map.mp (List.mem_filter.mp here).1
    obtain ⟨a, _, rfl⟩ := List.mem_map.mp own
    exact none e listed

end Edits
