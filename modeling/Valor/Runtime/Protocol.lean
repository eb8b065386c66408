import Mathlib.Data.List.OfFn
import Valor.Runtime.Machine

/-! Bodies written in the pattern of `k`: before every `co_await` the locals are saved and
`aw` is emptied; behind the label they are loaded, and a supplied result is taken from
`aw` in place of the await. The body itself is any control-flow graph. -/
namespace Valor

open Reactive Flow

variable {Pc Var : Type} {Val : Var → Type} {View Ev X R V : Type} {L : Nat}

/-- A coroutine body with its parameters and, for await number `s + 1`, the saved locals. -/
structure Body (Pc Var : Type) (L : Nat) where
  graph : Graph Pc (Fin L) Var
  params : List Var
  vars : Fin L → List Var

inductive KPoint (Pc : Type) (L : Nat) where
  | preamble
  | user (p : Pc)
  | resize (s : Fin L)
  | label (s : Fin L)
  | await (s : Fin L)

def kProgram (b : Body Pc Var L) (m : Meaning b.graph Val Ev X R V) :
    Program (KPoint Pc L) Val Ev X R V where
  entry := .preamble
  params := b.params
  fetch
    | .preamble =>
      .dispatch none (.user b.graph.entry :: List.ofFn .label) (.user b.graph.entry)
    | .user p =>
      match b.graph.node p with
      | .code _ _ _ _ => .code fun h l => (m.effects p h l, m.assign p h l, .user (m.branch p h l))
      | .await s => .save (s + 1) (b.vars s) (.resize s)
      | .ret _ => .coreturn (m.value p)
    | .resize s => .resize 1 (.label s)
    | .label s => .load (b.vars s) (.await s)
    | .await s => .guarded 0 (m.operand s) (m.bind s) (.user (b.graph.after s))

/-- The owner's answers to a suspended await whose result is `r`. -/
inductive Answers : R → Move Val R → Prop where
  | resume (r : R) : Answers r (.resume r)
  | migrate (r : R) (junk : Store Val) : Answers r (.migrate [r] junk)

namespace Protocol

variable [DecidableEq Var] {b : Body Pc Var L} {m : Meaning b.graph Val Ev X R V}

/-- What a promise holds from the `save` before an await until the code after it. -/
def Saved (u : Ufser Val View) (b : Body Pc Var L) (s : Fin L) (l : Store Val)
    (p : Promise X R) : Prop :=
  p.state = u.serialize (s + 1) (Promise.values l (b.vars s))

/-- The run without promise and migrations against the real one. `l` are the locals of the
former. The last three constructors are the way of a restored coroutine to the point where
it was suspended; `r` is then the only element of `aw`. -/
inductive Match (u : Ufser Val View) (b : Body Pc Var L) (m : Meaning b.graph Val Ev X R V) :
    Nat → Flow.State Pc (Fin L) Val Ev X V → State (KPoint Pc L) Val Ev X R V → Prop where
  | start {l q h} : q.state = [] →
      Match u b m 4 (.running b.graph.entry l h) (.running ⟨.preamble, l, q, h⟩)
  | user {p l l' q h} : Agree (b.graph.live p) l l' →
      Match u b m 3 (.running p l h) (.running ⟨.user p, l', q, h⟩)
  | resize {p s l l' q h} : b.graph.node p = .await s → Agree (b.graph.live p) l l' →
      Saved u b s l' q → Match u b m 2 (.running p l h) (.running ⟨.resize s, l', q, h⟩)
  | label {p s l l' q h} : b.graph.node p = .await s → Agree (b.graph.live p) l l' →
      Saved u b s l' q → q.aw.elems = [] →
      Match u b m 1 (.running p l h) (.running ⟨.label s, l', q, h⟩)
  | await {p s l l' q h} : b.graph.node p = .await s → Agree (b.graph.live p) l l' →
      Saved u b s l' q → q.aw.elems = [] →
      Match u b m 0 (.running p l h) (.running ⟨.await s, l', q, h⟩)
  | suspended {s l l' q x a h} : Agree (b.graph.liveAfter s) l l' → Saved u b s l' q →
      a.awaitResume q.aw = .ok x →
      Match u b m 0 (.waiting s l h)
        (.suspended ⟨.await s, l', q, h⟩ a (m.bind s) (.user (b.graph.after s)))
  | preamble {s r l l₀ l' q h} : Agree (b.graph.liveAfter s) l l₀ → Saved u b s l₀ q →
      q.aw.elems = [some (.result r)] →
      Match u b m 6 (.running (b.graph.after s) (m.bind s r l) h) (.running ⟨.preamble, l', q, h⟩)
  | relabel {s r l l₀ l' q h} : Agree (b.graph.liveAfter s) l l₀ → Saved u b s l₀ q →
      q.aw.elems = [some (.result r)] →
      Match u b m 5 (.running (b.graph.after s) (m.bind s r l) h) (.running ⟨.label s, l', q, h⟩)
  | supplied {s r l l' q h} : Agree (b.graph.liveAfter s) l l' →
      q.aw.elems = [some (.result r)] →
      Match u b m 4 (.running (b.graph.after s) (m.bind s r l) h) (.running ⟨.await s, l', q, h⟩)
  | finished {v h} : Match u b m 0 (.finished v h) (.finished v h)

section steps
variable {u : Ufser Val View} {ndebug : Bool}

theorem execute_preamble (rt : u.RoundTrips) {s : Fin L} (small : s.val + 1 < 2 ^ 16) {l₀ : Store Val}
    {c : Config (KPoint Pc L) Val Ev X R} (saved : Saved u b s l₀ c.promise) :
    execute u ndebug c ((kProgram b m).fetch .preamble) = .running { c with pc := .label s } := by
  have hs : c.promise.stage u = .ok (s.val + 1) := Promise.stage_saved rt small saved
  simp [kProgram, execute, hs]

theorem execute_preamble_fresh {c : Config (KPoint Pc L) Val Ev X R}
    (fresh : c.promise.state = []) : execute u ndebug c ((kProgram b m).fetch .preamble) =
      .running { c with pc := .user b.graph.entry } := by
  have hs : c.promise.stage u = .ok 0 := by simp [Promise.stage, fresh]
  simp only [kProgram, execute, hs]

theorem execute_user_code (u : Ufser Val View) (ndebug : Bool) {p : Pc} {r w next others}
    (e : b.graph.node p = .code r w next others) (c : Config (KPoint Pc L) Val Ev X R) :
    execute u ndebug c ((kProgram b m).fetch (.user p)) =
      .running { c with
        pc := .user (m.branch p c.hist c.locals), locals := m.assign p c.hist c.locals,
        hist := c.hist ++ (m.effects p c.hist c.locals).map .effect } := by
  simp only [kProgram, e, execute]

theorem execute_user_await (u : Ufser Val View) (ndebug : Bool) {p : Pc} {s : Fin L}
    (few : L < 2 ^ 16) (e : b.graph.node p = .await s) (c : Config (KPoint Pc L) Val Ev X R) :
    ∃ q, Saved u b s c.locals q ∧ execute u ndebug c ((kProgram b m).fetch (.user p)) =
      .running { c with pc := .resize s, promise := q } := by
  have small : (s.val + 1) % 2 ^ 16 = s.val + 1 := Nat.mod_eq_of_lt (by omega)
  refine ⟨c.promise.save u (s + 1) (b.vars s) c.locals, ?_, ?_⟩
  · simp only [Saved, Promise.save, small]
  · simp only [kProgram, e, execute]

theorem execute_label_saved (rt : u.RoundTrips) {s : Fin L} (small : s.val + 1 < 2 ^ 16) {l₀ : Store Val}
    {c : Config (KPoint Pc L) Val Ev X R} (saved : Saved u b s l₀ c.promise)
    (occupied : c.promise.aw.elems ≠ []) :
    execute u ndebug c ((kProgram b m).fetch (.label s)) =
      .running { c with pc := .await s, locals := overlay (b.vars s) l₀ c.locals } := by
  simp only [kProgram, execute, Promise.load_saved rt small saved occupied]

theorem execute_label_empty (u : Ufser Val View) (ndebug : Bool) {s : Fin L}
    {c : Config (KPoint Pc L) Val Ev X R} (empty : c.promise.aw.elems = []) :
    execute u ndebug c ((kProgram b m).fetch (.label s)) = .running { c with pc := .await s } := by
  simp only [kProgram, execute, Promise.load_empty empty]

theorem execute_await_supplied {s : Fin L} {r : R} {rest : List (Option (Held X R))}
    {c : Config (KPoint Pc L) Val Ev X R} (supplied : c.promise.aw.elems = some (.result r) :: rest) :
    execute u ndebug c ((kProgram b m).fetch (.await s)) =
      .running { c with pc := .user (b.graph.after s), locals := m.bind s r c.locals } := by
  have has : c.promise.aw.has 0 = true := by simp [AnyVec.has, supplied]
  have get : c.promise.aw.getAs 0 = .ok r := by simp [AnyVec.getAs, supplied]
  simp only [kProgram, execute, has, get, if_true]

theorem execute_await_empty {s : Fin L} {c : Config (KPoint Pc L) Val Ev X R}
    (empty : c.promise.aw.elems = []) :
    execute u ndebug c ((kProgram b m).fetch (.await s)) =
      suspend (m.operand s) (m.bind s) (.user (b.graph.after s)) c := by
  simp only [kProgram, execute, AnyVec.has_zero_of_nil empty, Bool.false_eq_true, if_false]

end steps

variable [∀ x, Inhabited (Val x)] {u : Ufser Val View} {ndebug : Bool}

theorem match_answer {s : Fin L} {l l' : Store Val} {q : Promise X R} {x : X} {a : Stored X R}
    {h : History Ev X} (agree : Agree (b.graph.liveAfter s) l l') (saved : Saved u b s l' q)
    (ready : a.awaitResume q.aw = .ok x) (r : R) (mv : Move Val R) (pair : Answers r mv) :
    let c : Config (KPoint Pc L) Val Ev X R := ⟨.await s, l', q, h⟩
    ∃ n, Match u b m n (.running (b.graph.after s) (m.bind s r l) h)
      (answer (kProgram b m) c (resume c a (m.bind s) (.user (b.graph.after s))) mv) := by
  intro c
  cases pair with
  | resume =>
    refine ⟨3, ?_⟩
    simp only [answer, resume, c, ready]
    exact .user (Meaning.bind_agree agree)
  | migrate =>
    refine ⟨6, .preamble agree ?_ ?_⟩
    · simp only [Saved, restored_state]
      exact saved
    · exact restored_elems _ _ [r]

/-- Every run of a body in the pattern of `k` follows the run without migrations. -/
def simulation (rt : u.RoundTrips) (few : L < 2 ^ 16)
    (listed : ∀ s, b.graph.liveAfter s ⊆ {x | x ∈ b.vars s}) :
    Simulation (m.machine (F := Fault)) (machine u ndebug (kProgram b m)) Answers where
  rel := Match u b m
  same_out := by
    intro n s t hm
    cases hm <;> rfl
  progress := by
    intro n s t hm
    cases hm with
    | start fresh =>
      exact .inl ⟨3, _, by decide, congrArg Turn.step (execute_preamble_fresh fresh),
        .user fun _ _ => rfl⟩
    | @user p l l' q h agree =>
      cases e : b.graph.node p with
      | code r w next others =>
        obtain ⟨effects, branch, agree'⟩ := Meaning.code_agree (m := m) (h := h) e agree
        have turn := execute_user_code u ndebug (m := m) e ⟨.user p, l', q, h⟩
        refine .inr (.inl ⟨3, _, _, congrArg Turn.step (Meaning.execute_code e),
          congrArg Turn.step turn, ?_⟩)
        rw [← effects, ← branch]
        exact .user agree'
      | await s =>
        obtain ⟨q', saved, turn⟩ := execute_user_await u ndebug (m := m) few e
          ⟨.user p, l', q, h⟩
        exact .inl ⟨2, _, by decide, congrArg Turn.step turn, .resize e agree saved⟩
      | ret r =>
        refine .inr (.inl ⟨0, _, _, congrArg Turn.step (Meaning.execute_ret e), ?_, .finished⟩)
        simp only [machine, kProgram, e, execute, Meaning.value_agree e agree]
    | resize e agree saved => exact .inl ⟨1, _, by decide, rfl, .label e agree saved rfl⟩
    | label e agree saved empty =>
      exact .inl ⟨0, _, by decide, congrArg Turn.step (execute_label_empty u ndebug empty),
        .await e agree saved empty⟩
    | @await p s l l' q h e agree saved empty =>
      obtain ⟨operand, agree'⟩ := Meaning.await_agree (m := m) (h := h) e agree
      refine .inr (.inl ⟨0, _, _, congrArg Turn.step (Meaning.execute_await e),
        congrArg Turn.step (execute_await_empty empty), ?_⟩)
      rw [operand]
      exact .suspended agree' ((Promise.awaitTransform_state q _).trans saved)
        (Promise.awaitTransform_resume q _)
    | suspended agree saved ready =>
      exact .inr (.inr (.inl ⟨_, _, rfl, rfl, match_answer agree saved ready⟩))
    | preamble agree saved supplied =>
      exact .inl ⟨5, _, by decide, congrArg Turn.step (execute_preamble rt (by omega) saved),
        .relabel agree saved supplied⟩
    | @relabel s r l l₀ l' q h agree saved supplied =>
      have occupied : q.aw.elems ≠ [] := by simp [supplied]
      refine .inl ⟨4, _, by decide, congrArg Turn.step (execute_label_saved rt (by omega) saved occupied),
        .supplied ?_ supplied⟩
      intro x hx
      exact (agree x hx).trans (overlay_agree l₀ l' (listed s) x hx)
    | supplied agree supplied =>
      exact .inl ⟨3, _, by decide, congrArg Turn.step (execute_await_supplied supplied),
        .user (Meaning.bind_agree agree)⟩
    | finished => exact .inr (.inr (.inr ⟨rfl, rfl⟩))

theorem observes_iff (rt : u.RoundTrips) (few : L < 2 ^ 16)
    (listed : ∀ s, b.graph.liveAfter s ⊆ {x | x ∈ b.vars s}) (args junk : Store Val)
    {rs : List R} {ms : List (Move Val R)} (answers : List.Forall₂ Answers rs ms)
    (o : History Ev X × Status V Fault) :
    (kProgram b m).Observes u ndebug args junk ms o ↔
      m.machine.Observes rs (.running b.graph.entry (overlay b.params args junk) []) o :=
  (simulation rt few listed).observes_iff answers (.start rfl) o

omit [∀ x, Inhabited (Val x)] in
/-- Only the jump leads to a label with anything in `aw`. -/
theorem label_empty {c c' : Config (KPoint Pc L) Val Ev X R} {s : Fin L}
    (step : execute u ndebug c ((kProgram b m).fetch c.pc) = .running c')
    (no_jump : c.pc ≠ .preamble) (label : c'.pc = .label s) : c'.promise.aw.elems = [] := by
  obtain ⟨pc, l, q, h⟩ := c
  cases pc with
  | preamble => exact absurd rfl no_jump
  | user p =>
    cases e : b.graph.node p <;> simp only [kProgram, e, execute, State.running.injEq, reduceCtorEq] at step
    all_goals subst step; cases label
  | resize s' =>
    simp only [kProgram, execute, State.running.injEq] at step
    subst step
    rfl
  | label s' =>
    simp only [kProgram, execute] at step
    split at step
    · cases step; cases label
    · cases step
  | await s' =>
    simp only [kProgram, execute] at step
    split at step
    · split at step
      · cases step; cases label
      · cases step
    · cases step

end Protocol

open Protocol in
/-- What a body in the pattern of `k` does and returns depends on the awaits' results only,
not on which suspensions were migrations; and a load behind no jump changes nothing. -/
theorem k_migration_transparent [DecidableEq Var] [∀ x, Inhabited (Val x)] {u : Ufser Val View}
    (ndebug : Bool) {b : Body Pc Var L} (m : Meaning b.graph Val Ev X R V) (rt : u.RoundTrips)
    (few : L < 2 ^ 16) (listed : ∀ s, b.graph.liveAfter s ⊆ {x | x ∈ b.vars s})
    (args junk : Store Val) {rs : List R} {ms ms' : List (Move Val R)}
    (answers : List.Forall₂ Answers rs ms) (answers' : List.Forall₂ Answers rs ms') :
    (∀ o, (kProgram b m).Observes u ndebug args junk ms o ↔
      (kProgram b m).Observes u ndebug args junk ms' o) ∧
    (∀ c c' s, (machine u ndebug (kProgram b m)).turn (.running c) = .step (.running c') →
      c.pc ≠ .preamble → c'.pc = .label s →
      (machine u ndebug (kProgram b m)).turn (.running c') =
        .step (.running { c' with pc := .await s })) := by
  constructor
  · intro o
    rw [Protocol.observes_iff rt few listed args junk answers,
      Protocol.observes_iff rt few listed args junk answers']
  · intro c c' s step no_jump label
    have empty := label_empty (Turn.step.inj step) no_jump label
    have turn := execute_label_empty u ndebug (m := m) (s := s) empty
    simp only [machine, label, turn]

/-! The coroutine `k` itself, with its log lines as effects and its `int`s as bit patterns. -/

inductive KVar where
  | in' | j
  deriving DecidableEq

inductive KLog where
  | started (i : UInt32)
  | firstAwait (i : UInt32)
  | afterAwait (j : UInt32)
  | secondAwait (j : UInt32)
  | done (i j : UInt32)
  deriving DecidableEq

inductive KLine where
  | start | first | between | second | done | exit

def k : Body KLine KVar 2 where
  graph := {
    entry := .start
    node := fun
      | .start => .code {.in'} {.in'} .first []
      | .first => .await 0
      | .between => .code {.j} {.j} .second []
      | .second => .await 1
      | .done => .code {.in', .j} ∅ .exit []
      | .exit => .ret ∅
    operand := fun s => if s = 0 then {.in'} else ∅
    uses := fun _ => ∅
    binds := fun s => if s = 0 then {.j} else ∅
    after := fun s => if s = 0 then .between else .done }
  params := [.in']
  vars := fun s => if s = 0 then [.in'] else [.in', .j]

/-- The awaiters are `remote_op{in}` and the void one; `work` is `nontriv_work`. -/
def kMeaning (work : UInt32 → UInt32) :
    Meaning k.graph (fun _ => UInt32) KLog (Option UInt32) UInt32 Nat where
  effects
    | .start, _, l => [.started (l .in'), .firstAwait (work (l .in'))]
    | .between, _, l => [.afterAwait (l .j), .secondAwait (work (l .j))]
    | .done, _, l => [.done (l .in') (l .j)]
    | _, _, _ => []
  assign
    | .start, _, l => Function.update l .in' (work (l .in'))
    | .between, _, l => Function.update l .j (work (l .j))
    | _, _, l => l
  branch
    | .start, _, _ => .first
    | .between, _, _ => .second
    | _, _, _ => .exit
  operand s _ l := if s = 0 then some (l .in') else none
  bind s r l := if s = 0 then Function.update l .j r else l
  value _ _ _ := 14
  effects_reads := by
    intro p r w q qs h l m e agree
    cases p <;> cases e <;> simp_all [Agree]
  branch_reads := by
    intro p r w q qs h l m e agree
    cases p <;> rfl
  branch_mem := by
    intro p r w q qs h l e
    cases p <;> cases e <;> exact List.mem_cons_self
  assign_reads := by
    intro p r w q qs h l m e agree
    cases p <;> cases e <;> simp_all [Agree]
  assign_frame := by
    intro p r w q qs h l x e hx
    cases p <;> cases e <;> simp_all
  operand_reads := by
    intro s h l m agree
    by_cases hs : s = 0 <;> simp_all [k, Agree]
  bind_reads := by
    intro s r l m agree
    by_cases hs : s = 0 <;> simp_all [k, Agree]
  bind_frame := by
    intro s r l x hx
    by_cases hs : s = 0 <;> simp_all [k]
  value_reads := by
    intro p r h l m e agree
    rfl

theorem k_lists_live (s : Fin 2) : k.graph.liveAfter s ⊆ {x | x ∈ k.vars s} := by
  intro x hx
  by_cases hs : s = 0
  · subst hs
    rcases hx with hx | ⟨hx, _⟩
    · cases hx
    · cases x
      · exact List.mem_cons_self
      · exact absurd rfl hx
  · cases x <;> simp [k, hs]

/-- `valor s | valor r`: the second process takes 29 for the result of the first await. -/
theorem k_migration_transparent_k :
    (kProgram k (kMeaning (· + 1))).Observes wordUfser true (fun _ => 45) (fun _ => 0)
      [.migrate [29] (fun _ => 7), .resume 0]
      ([.effect (.started 45), .effect (.firstAwait 46), .await (some 46),
        .effect (.afterAwait 29), .effect (.secondAwait 30), .await none,
        .effect (.done 46 30)], .finished 14) := by
  have moved : List.Forall₂ (@Answers KVar (fun _ => UInt32) UInt32) [29, 0]
      [.migrate [29] (fun _ => 7), .resume 0] := .cons (.migrate _ _) (.cons (.resume _) .nil)
  have stayed : List.Forall₂ (@Answers KVar (fun _ => UInt32) UInt32) [29, 0]
      [.resume 29, .resume 0] := .cons (.resume _) (.cons (.resume _) .nil)
  exact ((k_migration_transparent true (kMeaning (· + 1)) wordUfser_roundTrips (by decide)
    k_lists_live (fun _ => 45) (fun _ => 0) moved stayed).1 _).mpr ⟨20, rfl⟩

end Valor
