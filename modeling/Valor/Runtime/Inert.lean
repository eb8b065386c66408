import Valor.Runtime.Rewritten

/-! What `load` does in a run that was never restored: `aw` has been occupied since the first
await, so every load assigns what the save before the await has written. -/
namespace Valor

open Reactive Flow

variable {Pc Var : Type} {Val : Var → Type} {View Ev X R V : Type} {L : Nat} [DecidableEq Var]

/-- The variables have the same values after `load`. -/
def Promise.LoadInert (u : Ufser Val View) (p : Promise X R) (xs : List Var) (l : Store Val) : Prop :=
  ∃ l', p.load u xs l = .ok l' ∧ ∀ x ∈ xs, l' x = l x

section
variable [∀ x, Inhabited (Val x)]

/-- From a call, with `rs` as the answers of the awaiters, the run leads to `t`. -/
def Program.Reaches (u : Ufser Val View) (ndebug : Bool) (prog : Program Pc Val Ev X R V)
    (args junk : Store Val) (rs : List R) (t : State Pc Val Ev X R V) : Prop :=
  (machine u ndebug prog).Leads (.running (prog.create args junk [])) (rs.map .resume) t

/-- No load of the run with the answers `rs` changes a variable. -/
def Program.LoadsInert (u : Ufser Val View) (ndebug : Bool) (prog : Program Pc Val Ev X R V)
    (args junk : Store Val) (rs : List R) : Prop :=
  ∀ rs' c xs next, rs' <+: rs → prog.Reaches u ndebug args junk rs' (.running c) →
    prog.fetch c.pc = .load xs next → c.promise.LoadInert u xs c.locals

/-- No await of the run changes a variable of the load behind it: not when it suspends, not
while it is suspended and not when it is resumed. -/
def Program.AwaitsKeep (u : Ufser Val View) (ndebug : Bool) (prog : Program Pc Val Ev X R V)
    (args junk : Store Val) (rs : List R) : Prop :=
  ∀ rs' r c a bind next xs after, rs' ++ [r] <+: rs →
    prog.Reaches u ndebug args junk rs' (.suspended c a bind next) →
    prog.fetch next = .load xs after → ∀ x ∈ xs, bind r c.locals x = c.locals x

end

namespace Inert

open Rewritten

variable {b : Body Pc Var L} {m : Meaning b.graph Val Ev X R V} {u : Ufser Val View} {ndebug : Bool}

/-- What holds of the states of a run that was not restored. At a label, the locals are what
the await has made of those that were saved. -/
inductive Sound (u : Ufser Val View) (b : Body Pc Var L) (m : Meaning b.graph Val Ev X R V)
    (before : R → State (VPoint Pc L) Val Ev X R V → Prop) :
    State (VPoint Pc L) Val Ev X R V → Prop where
  | preamble {l q h} : q.state = [] → Sound u b m before (.running ⟨.preamble, l, q, h⟩)
  | user {p l q h} : Sound u b m before (.running ⟨.user p, l, q, h⟩)
  | await {s l q h} : Saved u b s l q → Sound u b m before (.running ⟨.await s, l, q, h⟩)
  | suspended {s l q h a x} : Saved u b s l q → q.aw.elems ≠ [] → a.awaitResume q.aw = .ok x →
      Sound u b m before (.suspended ⟨.await s, l, q, h⟩ a (m.bind s) (.label s))
  | label {s l q h a r} : Saved u b s l q → q.aw.elems ≠ [] →
      before r (.suspended ⟨.await s, l, q, h⟩ a (m.bind s) (.label s)) →
      Sound u b m before (.running ⟨.label s, m.bind s r l, q, h⟩)
  | finished {v h} : Sound u b m before (.finished v h)

theorem sound_step (rt : u.RoundTrips) {before : R → State (VPoint Pc L) Val Ev X R V → Prop}
    {c : Config (VPoint Pc L) Val Ev X R} (sound : Sound u b m before (.running c)) :
    Sound u b m before (execute u ndebug c ((valetProgram b m).fetch c.pc)) := by
  cases sound with
  | preamble fresh =>
    rw [execute_preamble_fresh fresh]
    exact .user
  | @user p l q h =>
    cases e : b.graph.node p with
    | code r w next others =>
      rw [execute_user_code u ndebug e]
      exact .user
    | await s =>
      rw [execute_user_await u ndebug e]
      exact .await rfl
    | ret r =>
      simp only [valetProgram, e, execute]
      exact .finished
  | @await s l q h saved =>
    exact .suspended ((Promise.awaitTransform_state q _).trans saved)
      (Promise.awaitTransform_occupied q _) (Promise.awaitTransform_resume q _)
  | label saved occupied _ =>
    rw [execute_label (load_saved rt saved occupied _)]
    exact .user

variable [∀ x, Inhabited (Val x)] {args junk : Store Val}

/-- The state reached by the answers, and how the last of them was given. -/
theorem sound_reached (rt : u.RoundTrips) {rs : List R} {t : State (VPoint Pc L) Val Ev X R V}
    (h : (valetProgram b m).Reaches u ndebug args junk rs t) :
    Sound u b m (fun r t' => ∃ rs', rs' ++ [r] = rs ∧
      (valetProgram b m).Reaches u ndebug args junk rs' t') t := by
  let reached (rs : List R) (t : State (VPoint Pc L) Val Ev X R V) : Prop :=
    (valetProgram b m).Reaches u ndebug args junk rs t
  let before (rs : List R) (r : R) (t : State (VPoint Pc L) Val Ev X R V) : Prop :=
    ∃ rs', rs' ++ [r] = rs ∧ reached rs' t
  let P (ms : List (Move Val R)) (t : State (VPoint Pc L) Val Ev X R V) : Prop :=
    ∀ rs, ms = rs.map .resume → reached rs t ∧ Sound u b m (before rs) t
  have step : ∀ ms t t', P ms t → (machine u ndebug (valetProgram b m)).turn t = .step t' → P ms t' := by
    rintro ms t t' inv turn rs rfl
    obtain ⟨here, sound⟩ := inv rs rfl
    have there := here.trans (.step turn (.here _))
    rw [List.append_nil] at there
    refine ⟨there, ?_⟩
    cases t with
    | running c =>
      cases turn
      exact sound_step rt sound
    | created | suspended | finished | faulted => cases turn
  have wait : ∀ ms t k, P ms t → (machine u ndebug (valetProgram b m)).turn t = .wait k →
      ∀ i, P (ms ++ [i]) (k i) := by
    intro ms t k inv turn i rs same
    obtain ⟨rs', last, rfl, rfl, single⟩ := List.map_eq_append_iff.mp same.symm
    obtain ⟨r, rfl, rfl⟩ := List.map_eq_singleton_iff.mp single
    obtain ⟨here, sound⟩ := inv rs' rfl
    have there : (machine u ndebug (valetProgram b m)).Leads
        (.running ((valetProgram b m).create args junk [])) ((rs' ++ [r]).map .resume)
        (k (.resume r)) := by
      rw [List.map_append]
      exact here.trans (.wait turn (.here _))
    refine ⟨there, ?_⟩
    cases sound with
    | suspended saved occupied ready =>
      cases turn
      simp only [answer, resume, ready]
      exact .label saved occupied ⟨rs', rfl, here⟩
    | preamble | user | await | label | finished => cases turn
  have start : P [] (.running ((valetProgram b m).create args junk [])) := by
    intro rs none
    cases List.map_eq_nil_iff.mp none.symm
    exact ⟨.here _, .preamble rfl⟩
  exact (Machine.Leads.invariant P step wait h start rs rfl).2

end Inert

open Inert Rewritten in
/-- In a run that was not restored, `load` leaves its variables alone exactly when the awaits
before it do. -/
theorem loads_inert_iff [∀ x, Inhabited (Val x)] {u : Ufser Val View} (rt : u.RoundTrips)
    (ndebug : Bool) {b : Body Pc Var L} (m : Meaning b.graph Val Ev X R V) (args junk : Store Val)
    (rs : List R) : (valetProgram b m).LoadsInert u ndebug args junk rs ↔
      (valetProgram b m).AwaitsKeep u ndebug args junk rs := by
  constructor
  · intro inert rs' r c a bind next xs after given reached fetch x hx
    cases sound_reached rt reached with
    | @suspended s l q h a _ saved occupied ready =>
      cases fetch
      have turn : (machine u ndebug (valetProgram b m)).turn
          (.suspended ⟨.await s, l, q, h⟩ a (m.bind s) (.label s)) = .wait _ := rfl
      have there : (valetProgram b m).Reaches u ndebug args junk (rs' ++ [r])
          (.running ⟨.label s, m.bind s r l, q, h⟩) := by
        have resumed := reached.trans (.wait (i := .resume r) turn (.here _))
        simp only [answer, resume, ready] at resumed
        rwa [← List.map_singleton, ← List.map_append] at resumed
      obtain ⟨l', loaded, same⟩ := inert _ _ _ _ given there rfl
      rw [load_saved rt saved occupied] at loaded
      cases loaded
      have kept := same x hx
      simpa [overlay, hx] using kept.symm
  · intro keep rs' c xs next given reached fetch
    cases sound_reached rt reached with
    | preamble => cases fetch
    | @user p =>
      simp only [valetProgram] at fetch
      split at fetch <;> cases fetch
    | await => cases fetch
    | @label s l q h a r saved occupied before =>
      cases fetch
      obtain ⟨rs'', rfl, suspended⟩ := before
      refine ⟨_, load_saved rt saved occupied _, fun x hx => ?_⟩
      have kept := keep rs'' r _ _ _ _ _ _ given suspended rfl x hx
      simpa [overlay, hx] using kept.symm

/-! `ser_ctx<int> f(int in) { co_await fill{in}; co_return in; }`, where the awaiter keeps a
reference to `in` and assigns to it before it resumes the coroutine. -/

inductive FillLine where
  | start | exit

def fill : Body FillLine Unit 1 where
  graph := {
    entry := .start
    node := fun
      | .start => .await (Fin.last 0)
      | .exit => .ret {()}
    operand := fun _ => ∅
    uses := fun _ => {()}
    binds := fun _ => {()}
    after := fun _ => .exit }
  params := [()]
  vars := fun _ => [()]

/-- The awaiter assigns `write r in` when it is answered with `r`. -/
def fillMeaning (write : UInt32 → UInt32 → UInt32) :
    Meaning fill.graph (fun _ => UInt32) Unit Unit UInt32 UInt32 where
  effects _ _ _ := []
  assign _ _ l := l
  branch _ _ _ := .exit
  operand _ _ _ := ()
  bind _ r l := fun x => write r (l x)
  value _ _ l := l ()
  effects_reads _ _ := rfl
  branch_reads _ _ := rfl
  branch_mem := by
    intro p r w q qs h l e
    cases p <;> cases e
  assign_reads := by
    intro p r w q qs h l m e
    cases p <;> cases e
  assign_frame _ _ := rfl
  operand_reads _ := rfl
  bind_reads agree x hx := congrArg (write _) (agree x hx)
  bind_frame hx := absurd rfl hx
  value_reads := by
    intro p r h l m e agree
    cases p <;> cases e
    exact agree () rfl

open Inert in
/-- An awaiter that leaves `in` alone. -/
theorem loads_inert_fill : (valetProgram fill (fillMeaning fun _ i => i)).LoadsInert wordUfser true
    (fun _ => 45) (fun _ => 0) [29] := by
  refine (loads_inert_iff wordUfser_roundTrips true _ _ _ _).mpr ?_
  intro rs' r c a bind next xs after _ reached _ x _
  cases sound_reached wordUfser_roundTrips reached with
  | suspended => rfl

/-- One that assigns 29: `load` takes `in` back to 45. -/
theorem loads_not_inert : ¬ (valetProgram fill (fillMeaning fun r _ => r)).LoadsInert wordUfser true
    (fun _ => 45) (fun _ => 0) [29] := by
  intro inert
  let l : Store fun _ : Unit => UInt32 := overlay fill.params (fun _ => 45) fun _ => 0
  let q : Promise Unit UInt32 := Promise.initial.save wordUfser (0 + 1) [()] l
  have reached : (valetProgram fill (fillMeaning fun r _ => r)).Reaches wordUfser true
      (fun _ => 45) (fun _ => 0) [29]
      (.running ⟨.label 0, fun _ => 29, (q.awaitTransform ()).2, [.await ()]⟩) :=
    .step rfl (.step rfl (.step rfl (.wait rfl (.here _))))
  obtain ⟨l', loaded, same⟩ := inert [29] _ _ _ (List.prefix_refl _) reached rfl
  have saved : Rewritten.Saved wordUfser fill 0 l (q.awaitTransform ()).2 := rfl
  rw [Rewritten.load_saved wordUfser_roundTrips saved (Promise.awaitTransform_occupied q ())] at loaded
  cases loaded
  exact absurd (same () (List.mem_singleton_self _)) (by decide)

end Valor
