import Valor.Runtime.Workflow

/-! State strings from elsewhere: the stage number in the string, narrowed to `uint16_t` and
checked only where assertions are on, selects the label, and the load there takes one element
for each variable. -/
namespace Valor

open Reactive Flow

variable {Pc Var : Type} {Val : Var → Type} {View Ev X R V : Type} {L : Nat}

/-- The element that `stage()` reads the number from. -/
def Ufser.first (u : Ufser Val View) (a : View) : Option View :=
  if u.isStructured a then (u.content a).head? else some a

/-- The stage number that is actually written in a string. -/
def Ufser.written (u : Ufser Val View) (ser : List UInt8) : Option Nat :=
  (u.view ser).bind fun a => (u.first a).bind u.getUnsigned

/-- Every listed variable has an element, or one before the end is of another type. -/
def Ufser.Enough (u : Ufser Val View) (xs : List Var) (es : List View) : Prop :=
  xs.length ≤ es.length ∨ ∃ v ∈ xs.zip es, u.get v.1 v.2 = none

namespace Foreign

variable [DecidableEq Var] [∀ x, Inhabited (Val x)] {u : Ufser Val View} {ndebug : Bool}
  {b : Body Pc Var L} {m : Meaning b.graph Val Ev X R V} {l : Store Val} {p : Promise X R}
  {h : History Ev X}

/-- What may come of a coroutine that is continued with the string: the string is rejected,
or the body starts at its beginning, or at the label of the number written. -/
inductive Controlled (u : Ufser Val View) (ndebug : Bool) (b : Body Pc Var L)
    (m : Meaning b.graph Val Ev X R V) (l : Store Val) (p : Promise X R) (h : History Ev X) :
    Prop where
  | rejected (f : Fault) : f ≠ .undefined →
      (machine u ndebug (valetProgram b m)).turn (.running ⟨.preamble, l, p, h⟩) =
        .step (.faulted f h) → Controlled u ndebug b m l p h
  | start : p.state = [] ∨ u.written p.state = some 0 →
      (machine u ndebug (valetProgram b m)).turn (.running ⟨.preamble, l, p, h⟩) =
        .step (.running ⟨.user b.graph.entry, l, p, h⟩) → Controlled u ndebug b m l p h
  | jump (s : Fin L) : u.written p.state = some (s.val + 1) →
      (machine u ndebug (valetProgram b m)).turn (.running ⟨.preamble, l, p, h⟩) =
        .step (.running ⟨.label s, l, p, h⟩) →
      (machine u ndebug (valetProgram b m)).turn (.running ⟨.label s, l, p, h⟩) ≠
        .step (.faulted .undefined h) → Controlled u ndebug b m l p h

/-- The numbers, and the elements behind them, that the emitted code can cope with. -/
def Manageable (u : Ufser Val View) (ndebug : Bool) (b : Body Pc Var L) (p : Promise X R) : Prop :=
  p.state = [] ∨ ∀ a, u.view p.state = some a → ∃ e, u.first a = some e ∧
    ∀ w, u.getUnsigned e = some w →
      w = 0 ∨ ndebug = false ∧ L < w % 2 ^ 16 ∨
      ∃ s : Fin L, w = s.val + 1 ∧ w < 2 ^ 16 ∧
        (p.aw.elems = [] ∨ u.Enough (b.vars s) (u.content a).tail)

omit [∀ x, Inhabited (Val x)] in
theorem assign_enough (xs : List Var) (es : List View) (l : Store Val) :
    Promise.assign u xs es l ≠ .error .undefined ↔ u.Enough xs es := by
  induction xs generalizing es l with
  | nil => simp [Promise.assign, Ufser.Enough]
  | cons x xs ih =>
    cases es with
    | nil => simp [Promise.assign, Ufser.Enough]
    | cons e es =>
      cases hx : u.get x e with
      | none => simp [Promise.assign, Ufser.Enough, hx]
      | some v =>
        simp only [Promise.assign, hx, ih]
        simp [Ufser.Enough, hx]

section preamble

variable {c : Config (VPoint Pc L) Val Ev X R}

omit [DecidableEq Var] [∀ x, Inhabited (Val x)] in
theorem stage_of_view {a : View} (full : p.state ≠ []) (view : u.view p.state = some a) :
    p.stage u = match u.first a with
      | none => .error .undefined
      | some e => Promise.stageNumber u e := by
  have occupied : p.state.isEmpty = false := by simpa using full
  simp only [Promise.stage, occupied, Bool.false_eq_true, if_false, view, Ufser.first]
  split
  · cases u.content a <;> rfl
  · rfl

theorem turn_of_error {f : Fault} (stage : p.stage u = .error f) :
    (machine u ndebug (valetProgram b m)).turn (.running ⟨.preamble, l, p, h⟩) =
      .step (.faulted f h) := by
  simp only [machine, valetProgram, execute, stage]

theorem turn_of_zero (stage : p.stage u = .ok 0) :
    (machine u ndebug (valetProgram b m)).turn (.running ⟨.preamble, l, p, h⟩) =
      .step (.running ⟨.user b.graph.entry, l, p, h⟩) := by
  simp only [machine, valetProgram, execute, stage]

theorem turn_of_label (s : Fin L) (stage : p.stage u = .ok (s + 1)) :
    (machine u ndebug (valetProgram b m)).turn (.running ⟨.preamble, l, p, h⟩) =
      .step (.running ⟨.label s, l, p, h⟩) :=
  congrArg Turn.step (Rewritten.execute_preamble_number (c := ⟨.preamble, l, p, h⟩) s stage)

/-- Past the table: the assertion where there is one, and anything where there is none. -/
theorem turn_beyond {t : Nat} (stage : p.stage u = .ok t) (beyond : L < t) :
    (machine u ndebug (valetProgram b m)).turn (.running ⟨.preamble, l, p, h⟩) =
      .step (.faulted (if ndebug then .undefined else .abort) h) := by
  obtain ⟨t, rfl⟩ := Nat.exists_eq_add_of_le' (Nat.one_le_of_lt beyond)
  have outside : (List.ofFn (VPoint.label : Fin L → VPoint Pc L))[t]? = none := by
    rw [List.getElem?_eq_none_iff, List.length_ofFn]
    omega
  simp only [machine, valetProgram, execute, stage, Option.any_some, beyond, decide_true,
    Bool.and_true, List.getElem?_cons_succ, outside]
  cases ndebug <;> rfl

theorem label_safe (ndebug : Bool) {s : Fin L} {a : View} (view : u.view p.state = some a) :
    (machine u ndebug (valetProgram b m)).turn (.running ⟨.label s, l, p, h⟩) ≠
        .step (.faulted .undefined h) ↔
      (p.aw.elems = [] ∨ u.Enough (b.vars s) (u.content a).tail) := by
  simp only [machine, valetProgram, execute, Promise.load, view]
  by_cases empty : p.aw.elems = []
  · simp [empty]
  · have occupied : p.aw.elems.isEmpty = false := by simpa using empty
    simp only [occupied, Bool.false_eq_true, if_false, empty, false_or, ← assign_enough _ _ l]
    cases Promise.assign u (b.vars s) (u.content a).tail l <;> simp

end preamble

section outcomes

variable {pc : VPoint Pc L}

theorem controlled_faulted {f : Fault}
    (turn : (machine u ndebug (valetProgram b m)).turn (.running ⟨.preamble, l, p, h⟩) =
      .step (.faulted f h)) : Controlled u ndebug b m l p h ↔ f ≠ .undefined := by
  constructor
  · rintro (⟨f', ne, turn'⟩ | ⟨_, turn'⟩ | ⟨_, _, turn', _⟩)
    · cases turn.symm.trans turn'
      exact ne
    · cases turn.symm.trans turn'
    · cases turn.symm.trans turn'
  · exact fun ne => .rejected f ne turn

theorem controlled_start
    (turn : (machine u ndebug (valetProgram b m)).turn (.running ⟨.preamble, l, p, h⟩) =
      .step (.running ⟨.user b.graph.entry, l, p, h⟩)) :
    Controlled u ndebug b m l p h ↔ p.state = [] ∨ u.written p.state = some 0 := by
  constructor
  · rintro (⟨_, _, turn'⟩ | ⟨begins, _⟩ | ⟨_, _, turn', _⟩)
    · cases turn.symm.trans turn'
    · exact begins
    · cases turn.symm.trans turn'
  · exact fun begins => .start begins turn

theorem controlled_jump {s : Fin L} {a : View} (view : u.view p.state = some a)
    (turn : (machine u ndebug (valetProgram b m)).turn (.running ⟨.preamble, l, p, h⟩) =
      .step (.running ⟨.label s, l, p, h⟩)) :
    Controlled u ndebug b m l p h ↔ u.written p.state = some (s.val + 1) ∧
      (p.aw.elems = [] ∨ u.Enough (b.vars s) (u.content a).tail) := by
  rw [← label_safe ndebug (m := m) (l := l) (h := h) view]
  constructor
  · rintro (⟨_, _, turn'⟩ | ⟨_, turn'⟩ | ⟨s', written, turn', safe⟩)
    · cases turn.symm.trans turn'
    · cases turn.symm.trans turn'
    · cases turn.symm.trans turn'
      exact ⟨written, safe⟩
  · rintro ⟨written, safe⟩
    exact .jump s written turn safe

end outcomes

/-- Of the numbers, only 0 and those of labels are as written when they reach the table. -/
theorem controlled_number {a e : View} {w : Nat} (full : p.state ≠ [])
    (view : u.view p.state = some a) (first : u.first a = some e)
    (number : u.getUnsigned e = some w) : Controlled u ndebug b m l p h ↔
      (w = 0 ∨ ndebug = false ∧ L < w % 2 ^ 16 ∨ ∃ s : Fin L, w = s.val + 1 ∧ w < 2 ^ 16 ∧
        (p.aw.elems = [] ∨ u.Enough (b.vars s) (u.content a).tail)) := by
  have written : u.written p.state = some w := by simp [Ufser.written, view, first, number]
  have stage : p.stage u = .ok (w % 2 ^ 16) := by
    simp only [stage_of_view full view, first, Promise.stageNumber, number]
  have narrow : w < 2 ^ 16 → w % 2 ^ 16 = w := Nat.mod_eq_of_lt
  rcases Nat.eq_zero_or_pos (w % 2 ^ 16) with zero | pos
  · rw [zero] at stage
    rw [controlled_start (turn_of_zero stage), written]
    simp only [full, Option.some.injEq, false_or, zero, Nat.not_lt_zero, and_false, false_or]
    refine (or_iff_left ?_).symm
    rintro ⟨s, label, small, _⟩
    have := narrow small
    omega
  · rcases Nat.lt_or_ge L (w % 2 ^ 16) with beyond | within
    · rw [controlled_faulted (turn_beyond stage beyond)]
      have nonzero : w ≠ 0 := by
        rintro rfl
        exact Nat.lt_irrefl 0 pos
      have no_label : ¬ ∃ s : Fin L, w = s.val + 1 ∧ w < 2 ^ 16 ∧
          (p.aw.elems = [] ∨ u.Enough (b.vars s) (u.content a).tail) := by
        rintro ⟨s, label, small, _⟩
        have := narrow small
        have := s.isLt
        omega
      simp only [nonzero, no_label, beyond, and_true, or_false, false_or]
      cases ndebug <;> simp
    · obtain ⟨t, ht⟩ := Nat.exists_eq_add_of_le' pos
      let s : Fin L := ⟨t, by omega⟩
      rw [ht] at stage
      rw [controlled_jump view (turn_of_label s stage), written]
      have not_beyond : ¬ L < w % 2 ^ 16 := Nat.not_lt.mpr within
      have nonzero : w ≠ 0 := by
        rintro rfl
        exact Nat.lt_irrefl 0 pos
      simp only [nonzero, not_beyond, and_false, false_or, Option.some.injEq]
      constructor
      · rintro ⟨label, safe⟩
        have small : w < 2 ^ 16 := calc
          w = w % 2 ^ 16 := label.trans ht.symm
          _ < 2 ^ 16 := Nat.mod_lt w (by decide)
        exact ⟨s, label, small, safe⟩
      · rintro ⟨s', label, small, safe⟩
        have same : s' = s := by
          apply Fin.ext
          have := narrow small
          simp only [s]
          omega
        subst same
        exact ⟨label, safe⟩

/-- The emitted code keeps control exactly of the strings it can cope with. -/
theorem controlled_iff (u : Ufser Val View) (ndebug : Bool) (b : Body Pc Var L)
    (m : Meaning b.graph Val Ev X R V) (l : Store Val) (p : Promise X R) (h : History Ev X) :
    Controlled u ndebug b m l p h ↔ Manageable u ndebug b p := by
  by_cases empty : p.state = []
  · have stage : p.stage u = .ok 0 := by simp [Promise.stage, empty]
    exact ⟨fun _ => .inl empty, fun _ => .start (.inl empty) (turn_of_zero stage)⟩
  · simp only [Manageable, empty, false_or]
    cases view : u.view p.state with
    | none =>
      have stage : p.stage u = .error .terminate := by simp [Promise.stage, empty, view]
      rw [controlled_faulted (turn_of_error stage)]
      simp
    | some a =>
      cases first : u.first a with
      | none =>
        have stage : p.stage u = .error .undefined := by
          simp only [stage_of_view empty view, first]
        rw [controlled_faulted (turn_of_error stage)]
        simp [first]
      | some e =>
        cases number : u.getUnsigned e with
        | none =>
          have stage : p.stage u = .error .terminate := by
            simp only [stage_of_view empty view, first, Promise.stageNumber, number]
          rw [controlled_faulted (turn_of_error stage)]
          simp [first, number]
        | some w =>
          rw [controlled_number empty view first number]
          simp [first, number]

/-- A build without assertions jumps by the number 7, past the one label there is; a build
with them loads a variable from the bare number 1, which has no element for it. -/
theorem foreign_strings_uncontrolled :
    ¬ Controlled wordUfser true (logAfterAwait Set.univ) logIn (fun _ => 0) ⟨be32 7, .empty⟩ [] ∧
    ¬ Controlled wordUfser false (logAfterAwait Set.univ) logIn (fun _ => 0)
      (restored .initial (be32 1) [()]) [] := by
  constructor
  · have stage : (⟨be32 7, .empty⟩ : Promise Unit Unit).stage (@wordUfser Unit) = .ok 7 := by decide
    rw [controlled_faulted (turn_beyond stage (by decide))]
    exact fun ne => ne rfl
  · have stage : (restored .initial (be32 1) [()] : Promise Unit Unit).stage (@wordUfser Unit) =
        .ok ((0 : Fin 1) + 1) := by decide
    rw [controlled_jump (a := be32 1) (by decide) (turn_of_label 0 stage)]
    rintro ⟨_, empty | enough | ⟨v, hv, _⟩⟩
    · cases empty
    · exact absurd enough (by decide)
    · cases hv

end Foreign

end Valor
