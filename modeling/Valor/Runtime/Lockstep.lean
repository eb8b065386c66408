import Valor.Runtime.Machine

/-! Programs that differ in nothing but their control points. -/
namespace Valor

open Reactive Flow

variable {Pc Pc' Var : Type} {Val : Var → Type} {View Ev X R V : Type} {rel : Pc → Pc' → Prop}

inductive Instr.Same (rel : Pc → Pc' → Prop) :
    Instr Pc Val Ev X R V → Instr Pc' Val Ev X R V → Prop where
  | code {f g} : (∀ h l, (f h l).1 = (g h l).1 ∧ (f h l).2.1 = (g h l).2.1 ∧
      rel (f h l).2.2 (g h l).2.2) → Same rel (.code f) (.code g)
  | dispatch {assertLe table table' start start'} : List.Forall₂ rel table table' →
      rel start start' → Same rel (.dispatch assertLe table start) (.dispatch assertLe table' start')
  | save {n vars next next'} : rel next next' → Same rel (.save n vars next) (.save n vars next')
  | load {vars next next'} : rel next next' → Same rel (.load vars next) (.load vars next')
  | coawait {x bind next next'} : rel next next' →
      Same rel (.coawait x bind next) (.coawait x bind next')
  | coreturn {v} : Same rel (.coreturn v) (.coreturn v)

inductive State.Same (rel : Pc → Pc' → Prop) :
    State Pc Val Ev X R V → State Pc' Val Ev X R V → Prop where
  | running {pc pc' l p h} : rel pc pc' → Same rel (.running ⟨pc, l, p, h⟩) (.running ⟨pc', l, p, h⟩)
  | suspended {pc pc' l p h a bind next next'} : rel next next' →
      Same rel (.suspended ⟨pc, l, p, h⟩ a bind next) (.suspended ⟨pc', l, p, h⟩ a bind next')
  | finished {v h} : Same rel (.finished v h) (.finished v h)
  | faulted {f h} : Same rel (.faulted f h) (.faulted f h)

structure Program.Same (rel : Pc → Pc' → Prop) (prog : Program Pc Val Ev X R V)
    (prog' : Program Pc' Val Ev X R V) : Prop where
  entry : rel prog.entry prog'.entry
  params : prog.params = prog'.params
  fetch : ∀ {pc pc'}, rel pc pc' → Instr.Same rel (prog.fetch pc) (prog'.fetch pc')

theorem table_same {table : List Pc} {table' : List Pc'} (same : List.Forall₂ rel table table')
    (i : Nat) : table[i]? = none ∧ table'[i]? = none ∨
      ∃ pc pc', table[i]? = some pc ∧ table'[i]? = some pc' ∧ rel pc pc' := by
  induction same generalizing i with
  | nil => exact .inl ⟨rfl, rfl⟩
  | cons first _ ih =>
    cases i with
    | zero => exact .inr ⟨_, _, rfl, rfl, first⟩
    | succ i => exact ih i

namespace Program.Same

variable [DecidableEq Var] {u : Ufser Val View} {ndebug : Bool} {pc : Pc} {pc' : Pc'}
  {l : Store Val} {p : Promise X R} {h : History Ev X}

theorem execute_same {i : Instr Pc Val Ev X R V} {i' : Instr Pc' Val Ev X R V}
    (same : Instr.Same rel i i') : State.Same rel (execute u ndebug ⟨pc, l, p, h⟩ i)
      (execute u ndebug ⟨pc', l, p, h⟩ i') := by
  cases same with
  | code next =>
    obtain ⟨effects, locals, next⟩ := next h l
    simp only [execute, effects, locals]
    exact .running next
  | dispatch table start =>
    simp only [execute]
    split
    · exact .faulted
    · exact .running start
    · rename_i st _ _
      split
      · exact .faulted
      · rcases table_same table st with ⟨none, none'⟩ | ⟨next, next', found, found', at'⟩
        · simp only [none, none']
          exact .faulted
        · simp only [found, found']
          exact .running at'
  | save next => exact .running next
  | load next =>
    simp only [execute]
    split
    · exact .running next
    · exact .faulted
  | coawait next => exact .suspended next
  | coreturn => exact .finished

variable [∀ x, Inhabited (Val x)] {prog : Program Pc Val Ev X R V}
  {prog' : Program Pc' Val Ev X R V}

def simulation (same : Program.Same rel prog prog') (u : Ufser Val View) (ndebug : Bool) :
    Simulation (machine u ndebug prog) (machine u ndebug prog') Eq where
  rel _ := State.Same rel
  same_out := by
    intro n s t hm
    cases hm <;> rfl
  progress := by
    intro n s t hm
    cases hm with
    | running at' => exact .inr (.inl ⟨0, _, _, rfl, rfl, execute_same (same.fetch at')⟩)
    | @suspended pc pc' l p h a bind next next' at' =>
      refine .inr (.inr (.inl ⟨_, _, rfl, rfl, ?_⟩))
      rintro i _ rfl
      refine ⟨0, ?_⟩
      cases i with
      | resume r =>
        simp only [answer, resume]
        split
        · exact .running at'
        · exact .faulted
      | migrate results junk =>
        simp only [answer, continueFrom, create, same.params]
        exact .running same.entry
    | finished => exact .inr (.inr (.inr ⟨rfl, rfl⟩))
    | faulted => exact .inr (.inr (.inr ⟨rfl, rfl⟩))

theorem observes_iff (same : Program.Same rel prog prog') {args junk : Store Val}
    {ms : List (Move Val R)} {o : History Ev X × Status V Fault} :
    prog'.Observes u ndebug args junk ms o ↔ prog.Observes u ndebug args junk ms o := by
  have start : State.Same rel (.running (prog.create args junk []) : State Pc Val Ev X R V)
      (.running (prog'.create args junk [])) := by
    simp only [create, same.params]
    exact .running same.entry
  exact (same.simulation u ndebug).observes_iff (List.forall₂_refl ms) (n := 0) start o

end Program.Same

end Valor
