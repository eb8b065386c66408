import Valor.Valet.Locals
import Valor.Valet.Straying

/-! When what Valet writes does the same as the coroutine, if it runs in one go. -/
namespace Valor.Valet

open Reactive Flow Code Rewritten

/-! ## What compiles -/

/-- Nothing takes the place of the preamble's variable. -/
def unshadowed (env : List Local) : Bool := env.all fun x => x.name ≠ "_valet_p"

/-- The preamble and the calls compile; `own` tells the types that name, with `valor::` in
front, the class that the coroutine returns. -/
def Code.accepted (own : String → Bool) : List Local → Code Local → Bool
  | _, nil => true
  | env, block b rest => accepted own env b && accepted own env rest
  | env, expr x _ rest => accepted own (declare x env) rest
  | env, coawait _ _ rest => accepted own env rest
  | env, if' c t e rest => accepted own (declare c.var env) t &&
    (accepted own (declare c.var env) e && accepted own env rest)
  | env, while' c b rest => accepted own (declare c.var env) b && accepted own env rest
  | env, for' x _ c _ b rest =>
    accepted own (declare c.var (declare x env)) b && accepted own env rest
  | env, save _ vars rest =>
    (unshadowed env && vars.all fun x => x.type.serializes) && accepted own env rest
  | env, load _ vars rest =>
    (unshadowed env && vars.all fun x => x.type.loads) && accepted own env rest
  -- `auto _valet_p` is declared in the function's own block.
  | env, preamble p rest =>
    (own p.ctxType && unshadowed (scopeAfter env rest)) && accepted own env rest

/-- What Valet leaves, if it compiles. -/
def Coroutine.compiled (f : Coroutine) : Option (Code Local) :=
  f.rewritten.filter (accepted (fun t => f.denotes ("valor::" ++ t) = some f.ctx) f.params)

/-- What the preamble and the calls need of a coroutine. -/
structure Coroutine.Callable (f : Coroutine) : Prop where
  context : f.denotes ("valor::" ++ f.returnType) = some f.ctx
  visible : f.Visible
  restorable : ∀ s t, f.decl.sites[s]? = some t →
    ∀ v ∈ t.context.vars, ∀ x ∈ lookup (f.scope s) v.name, x.type.restorable
  top : unshadowed (scopeAfter f.params f.body)
  around : ∀ p ∈ scopes f.params f.body, unshadowed p.2

section compiles

variable {own : String → Bool} {locals : Nat → List Local}

theorem scopeAfter_calls (locals : Nat → List Local) (env : List Local) {c : Source}
    (bare : c.Bare) : scopeAfter env (calls locals c) = scopeAfter env c := by
  induction c generalizing env with
  | nil => rfl
  | expr x _ _ ih => exact ih (declare x env) bare
  | coawait _ _ _ ih => exact ih env bare
  | block _ _ _ ih | while' _ _ _ _ ih | for' _ _ _ _ _ _ _ ih => exact ih env bare.2
  | if' _ _ _ _ _ _ ih => exact ih env bare.2.2
  | _ => exact bare.elim

theorem accepted_calls {env : List Local} {c : Source} (bare : c.Bare) :
    accepted own env (calls locals c) ↔
      ∀ p ∈ scopes env c, unshadowed p.2 ∧ ∀ x ∈ locals p.1, x.type.restorable := by
  induction c generalizing env with
  | nil => simp [calls, accepted, scopes]
  | block _ _ ih ih' =>
    simp only [calls, accepted, Bool.and_eq_true, scopes, List.forall_mem_append, ih bare.1,
      ih' bare.2]
  | expr _ _ _ ih => exact ih bare
  | coawait _ _ _ ih =>
    simp only [calls, accepted, Bool.and_eq_true, List.all_eq_true, scopes, List.forall_mem_cons,
      ih bare, CxxType.restorable]
    grind
  | if' _ _ _ _ iht ihe ih =>
    simp only [calls, accepted, Bool.and_eq_true, scopes, List.forall_mem_append, iht bare.1,
      ihe bare.2.1, ih bare.2.2]
  | while' _ _ _ ihb ih | for' _ _ _ _ _ _ ihb ih =>
    simp only [calls, accepted, Bool.and_eq_true, scopes, List.forall_mem_append, ihb bare.1,
      ih bare.2]
  | _ => exact bare.elim

end compiles

namespace Coroutine

variable {f : Coroutine}

theorem mem_locals (visible : f.Visible) {s : Nat} {t : Site} (site : f.decl.sites[s]? = some t)
    {x : Local} : x ∈ f.locals s ↔ ∃ v ∈ t.context.vars, lookup (f.scope s) v.name = some x := by
  obtain ⟨env, mem, _, saved⟩ := stage_at site
  have all := mapM_isSome.mpr (visible_iff.mp visible (s, env) mem)
  rw [← scope_mem mem] at all
  obtain ⟨vars, found⟩ := Option.isSome_iff_exists.mp all
  simp only [locals, found, Option.getD_some, mem_mapM found, saved.mem_iff, List.mem_map]
  simp

/-- The types and the names are right in the output. -/
theorem accepted_output (visible : f.Visible) :
    accepted (fun t => f.denotes ("valor::" ++ t) = some f.ctx) f.params (f.output f.locals) ↔
      f.Callable := by
  simp only [output, accepted, Bool.and_eq_true, decide_eq_true_iff, accepted_calls f.formed.bare,
    scopeAfter_calls f.locals f.params f.formed.bare]
  constructor
  · rintro ⟨⟨context, top⟩, all⟩
    refine ⟨context, visible, fun s t site v mem x found => ?_, top, fun p mem => (all p mem).1⟩
    obtain ⟨env, here, _⟩ := stage_at site
    exact (all (s, env) here).2 x ((mem_locals visible site).mpr ⟨v, mem, found⟩)
  · intro h
    refine ⟨⟨h.context, h.top⟩, ?_⟩
    rintro ⟨s, env⟩ mem
    refine ⟨h.around _ mem, fun x hx => ?_⟩
    obtain ⟨t, site, _⟩ := site_of mem
    obtain ⟨v, mem', found⟩ := (mem_locals visible site).mp hx
    exact h.restorable s t site v mem' x found

end Coroutine

/-- Whatever the expressions do: the output compiles, and an uninterrupted run of it shows
what a run of the coroutine shows. -/
def Coroutine.Preserves (f : Coroutine) : Prop :=
  ∀ {Val : Local → Type} [∀ x, Inhabited (Val x)] {View Ev X R V : Type} (sem : Sem Val Ev X V)
    {u : Ufser Val View}, u.RoundTrips → ∀ (ndebug : Bool) (args junk : Store Val) (rs : List R),
    ∃ c, f.compiled = some c ∧ ∀ o,
      (program sem f.params f.ret c).Observes u ndebug args junk (rs.map .resume) o ↔
        (f.meaning sem).machine.Observes rs (.running f.body (overlay f.params args junk) []) o

variable {T : Nat → Bool} {a : Nat} {env : List Local} {c k : Source} {r : Code Local}

theorem preserves_of_braced {f : Coroutine} (braced : f.body.Braced true) (callable : f.Callable) :
    f.Preserves := by
  intro Val _ View Ev X R V sem u rt ndebug args junk rs
  have compiled : f.compiled = some (f.output f.locals) :=
    Option.filter_eq_some_iff.mpr ⟨f.rewritten_braced braced callable.visible,
      (Coroutine.accepted_output callable.visible).mpr callable⟩
  refine ⟨_, compiled, fun o => ?_⟩
  have transparent :
      (valetProgram (f.bodyOf f.locals) (f.meaning sem)).Observes u ndebug args junk
          (rs.map .resume) o ↔
        (f.meaning sem).machine.Observes rs (.running f.body (overlay f.params args junk) []) o :=
    in_place_observes_iff (b := f.bodyOf f.locals) ndebug (f.meaning sem) rt (f.void f.locals)
      args junk rs o
  exact (f.output_same f.locals sem).observes_iff.trans transparent

/-! ## Straying in the resolved code -/

theorem resolves_append (h : Resolves env (c.append k) r) :
    ∃ r₁ r₂, r = r₁.append r₂ ∧ Resolves env c r₁ ∧ Resolves (scopeAfter env c) k r₂ := by
  induction c generalizing env r with
  | nil => exact ⟨nil, r, rfl, .nil, h⟩
  | block b rest _ ih =>
    cases h with
    | block inB later =>
      obtain ⟨r₁, r₂, rfl, h₁, h₂⟩ := ih later
      exact ⟨.block _ r₁, r₂, rfl, .block inB h₁, h₂⟩
  | expr x e rest ih =>
    cases h with
    | expr named later =>
      obtain ⟨r₁, r₂, rfl, h₁, h₂⟩ := ih later
      exact ⟨.expr _ _ r₁, r₂, rfl, .expr named h₁, h₂⟩
  | coawait s e rest ih =>
    cases h with
    | coawait named later =>
      obtain ⟨r₁, r₂, rfl, h₁, h₂⟩ := ih later
      exact ⟨.coawait _ _ r₁, r₂, rfl, .coawait named h₁, h₂⟩
  | if' g t e rest _ _ ih =>
    cases h with
    | if' named inT inE later =>
      obtain ⟨r₁, r₂, rfl, h₁, h₂⟩ := ih later
      exact ⟨.if' _ _ _ r₁, r₂, rfl, .if' named inT inE h₁, h₂⟩
  | while' g b rest _ ih =>
    cases h with
    | while' named inB later =>
      obtain ⟨r₁, r₂, rfl, h₁, h₂⟩ := ih later
      exact ⟨.while' _ _ r₁, r₂, rfl, .while' named inB h₁, h₂⟩
  | for' x i g inc b rest _ ih =>
    cases h with
    | for' named inB later =>
      obtain ⟨r₁, r₂, rfl, h₁, h₂⟩ := ih later
      exact ⟨.for' _ _ _ _ _ r₁, r₂, rfl, .for' named inB h₁, h₂⟩
  | save n vars rest ih =>
    cases h with
    | save found later =>
      obtain ⟨r₁, r₂, rfl, h₁, h₂⟩ := ih later
      exact ⟨.save _ _ r₁, r₂, rfl, .save found h₁, h₂⟩
  | load n vars rest ih =>
    cases h with
    | load found later =>
      obtain ⟨r₁, r₂, rfl, h₁, h₂⟩ := ih later
      exact ⟨.load _ _ r₁, r₂, rfl, .load found h₁, h₂⟩
  | preamble n rest ih =>
    cases h with
    | preamble later =>
      obtain ⟨r₁, r₂, rfl, h₁, h₂⟩ := ih later
      exact ⟨.preamble _ r₁, r₂, rfl, .preamble h₁, h₂⟩

theorem Passes.resolved (passes : Passes T c) (h : Resolves env c r) : Passes T r := by
  induction passes generalizing env r with
  | nil =>
    cases h
    exact .nil
  | expr _ ih =>
    cases h with
    | expr _ later => exact .expr (ih later)
  | block _ _ ih ih' =>
    cases h with
    | block inB later => exact .block (ih inB) (ih' later)
  | await _ ih =>
    cases h with
    | save found h =>
      cases h with
      | coawait _ h =>
        cases h with
        | load found' later =>
          cases found.symm.trans found'
          exact .await (ih later)
  | «then» holds _ _ iht ih =>
    cases h with
    | if' _ inT _ later => exact .then holds (iht inT) (ih later)
  | «else» fails _ _ ihe ih =>
    cases h with
    | if' _ _ inE later => exact .else fails (ihe inE) (ih later)
  | «while» fails _ ih =>
    cases h with
    | while' _ _ later => exact .while fails (ih later)
  | «for» fails _ ih =>
    cases h with
    | for' _ _ later => exact .for fails (ih later)

theorem Visits.resolved (visits : Visits T a c) (h : Resolves env c r) : Visits T a r := by
  induction visits generalizing env r with
  | here same =>
    cases h with
    | coawait => exact .here same
  | past passes _ ih =>
    obtain ⟨r₁, r₂, rfl, h₁, h₂⟩ := resolves_append h
    exact .past (passes.resolved h₁) (ih h₂)
  | block _ ih =>
    cases h with
    | block inB => exact .block (ih inB)
  | «then» holds _ ih =>
    cases h with
    | if' _ inT => exact .then holds (ih inT)
  | «else» fails _ ih =>
    cases h with
    | if' _ _ inE => exact .else fails (ih inE)
  | «while» holds _ ih =>
    cases h with
    | while' _ inB => exact .while holds (ih inB)
  | «for» holds _ ih =>
    cases h with
    | for' _ inB => exact .for holds (ih inB)

/-! ## Steered runs -/

/-- The tests tell the conditions in `T`, and an await shows its operand. -/
def steer (T : Nat → Bool) : Sem (fun _ : Local => UInt32) Unit Nat Unit where
  effects _ _ _ := []
  assign e _ l x := if x ∈ e.writes then 0 else l x
  test e _ _ := T e.id
  operand e _ _ := e.id
  value _ _ _ := ()
  effects_reads _ := rfl
  assign_reads _ x hx := by simp_all
  assign_frame hx := if_neg hx
  test_reads _ := rfl
  operand_reads _ := rfl
  value_reads _ := rfl

section leads

variable {View : Type} {u : Ufser (fun _ : Local => UInt32) View} {ndebug : Bool}
  {params : List Local} {ret : Expr} {body c k : Code Local}

abbrev steered (u : Ufser (fun _ : Local => UInt32) View) (ndebug : Bool) (T : Nat → Bool)
    (params : List Local) (ret : Expr) (body : Code Local) :=
  machine u ndebug (program (R := Unit) (steer T) params ret body)

/-- The answers to `n` awaits. -/
abbrev answers (n : Nat) : List (Move (fun _ : Local => UInt32) Unit) := .replicate n (.resume ())

theorem leads_trans {s t v : State (Code Local) (fun _ : Local => UInt32) Unit Nat Unit Unit}
    {n m : Nat} (h : (steered u ndebug T params ret body).Leads s (answers n) t)
    (h' : (steered u ndebug T params ret body).Leads t (answers m) v) :
    (steered u ndebug T params ret body).Leads s (answers (n + m)) v := by
  rw [answers, List.replicate_add]
  exact h.trans h'

theorem await_leads (rt : u.RoundTrips) (n : Nat) (vars : List Local) (s : Nat) (e : Expr)
    (k : Code Local) (l : Store fun _ : Local => UInt32) (p : Promise Nat Unit)
    (h : History Unit Nat) :
    ∃ l' p', (steered u ndebug T params ret body).Leads
      (.running ⟨save n vars (coawait s e (load n vars k)), l, p, h⟩) (answers 1)
      (.running ⟨k, l', p', h ++ [.await e.id]⟩) := by
  let q := p.save u n vars l
  let t := q.awaitTransform e.id
  have ready : t.1.awaitResume t.2.aw = .ok e.id := Promise.awaitTransform_resume q e.id
  have saved : t.2.state = u.serialize (n % 2 ^ 16) (Promise.values l vars) :=
    Promise.awaitTransform_state q e.id
  have loaded := Promise.load_saved rt (Nat.mod_lt n (by decide)) saved
    (Promise.awaitTransform_occupied q e.id) l
  have turn : (steered u ndebug T params ret body).turn
      (.running ⟨load n vars k, l, t.2, h ++ [.await e.id]⟩) =
      .step (.running ⟨k, overlay vars l l, t.2, h ++ [.await e.id]⟩) := by
    simp only [machine, program, execute, loaded]
  have resumed : (steered u ndebug T params ret body).Leads
      (resume ⟨coawait s e (load n vars k), l, t.2, h ++ [.await e.id]⟩ t.1 (fun _ l => l)
        (load n vars k) ()) [] (.running ⟨k, overlay vars l l, t.2, h ++ [.await e.id]⟩) := by
    simp only [resume, ready]
    exact .step turn (.here _)
  exact ⟨_, _, .step rfl (.step rfl (.wait rfl resumed))⟩

theorem Passes.leads (rt : u.RoundTrips) (passes : Passes T c) (k : Code Local)
    (l : Store fun _ : Local => UInt32) (p : Promise Nat Unit) (h : History Unit Nat) :
    ∃ n l' p' h', (steered u ndebug T params ret body).Leads (.running ⟨c.append k, l, p, h⟩)
      (answers n) (.running ⟨k, l', p', h'⟩) := by
  induction passes generalizing k l p h with
  | nil => exact ⟨0, l, p, h, .here _⟩
  | expr _ ih =>
    obtain ⟨n, l', p', h', leads⟩ := ih k _ p _
    exact ⟨n, l', p', h', .step rfl leads⟩
  | @block b rest _ _ ih ih' =>
    obtain ⟨n, l₁, p₁, h₁, first⟩ := ih (rest.append k) l p (h ++ [])
    obtain ⟨m, l', p', h', later⟩ := ih' k l₁ p₁ h₁
    exact ⟨n + m, l', p', h', .step rfl (leads_trans first later)⟩
  | @await n vars s e rest _ ih =>
    obtain ⟨l₁, p₁, first⟩ := await_leads rt n vars s e (rest.append k) l p h
    obtain ⟨m, l', p', h', later⟩ := ih k l₁ p₁ (h ++ [.await e.id])
    exact ⟨1 + m, l', p', h', leads_trans first later⟩
  | @«then» g t e rest holds _ _ iht ih =>
    obtain ⟨n, l₁, p₁, h₁, first⟩ := iht (rest.append k) ((steer T).assign g.toExpr h l) p (h ++ [])
    obtain ⟨m, l', p', h', later⟩ := ih k l₁ p₁ h₁
    refine ⟨n + m, l', p', h', .step ?_ (leads_trans first later)⟩
    simp [machine, program, append, execute, steer, holds]
  | @«else» g t e rest fails _ _ ihe ih =>
    obtain ⟨n, l₁, p₁, h₁, first⟩ := ihe (rest.append k) ((steer T).assign g.toExpr h l) p (h ++ [])
    obtain ⟨m, l', p', h', later⟩ := ih k l₁ p₁ h₁
    refine ⟨n + m, l', p', h', .step ?_ (leads_trans first later)⟩
    simp [machine, program, append, execute, steer, fails]
  | @«while» g b rest fails _ ih =>
    obtain ⟨n, l', p', h', leads⟩ := ih k ((steer T).assign g.toExpr h l) p (h ++ [])
    refine ⟨n, l', p', h', .step ?_ leads⟩
    simp [machine, program, append, execute, steer, fails]
  | @«for» x i g inc b rest fails _ ih =>
    obtain ⟨n, l', p', h', leads⟩ :=
      ih k ((steer T).assign g.toExpr (h ++ []) ((steer T).assign i h l)) p ((h ++ []) ++ [])
    refine ⟨n, l', p', h', .step rfl (.step ?_ leads)⟩
    simp [machine, program, forLoop, append, execute, steer, fails]

theorem Visits.leads (rt : u.RoundTrips) (visits : Visits T a c) (k : Code Local)
    (l : Store fun _ : Local => UInt32) (p : Promise Nat Unit) (h : History Unit Nat) :
    ∃ n t, (steered u ndebug T params ret body).Leads (.running ⟨c.append k, l, p, h⟩) (answers n) t ∧
      .await a ∈ t.out.1 := by
  induction visits generalizing k l p h with
  | @here s e rest same =>
    exact ⟨0, _, .step rfl (.here _),
      by simp [Code.append, execute, suspend, State.out, program, steer, same]⟩
  | past passes _ ih =>
    obtain ⟨n, l₁, p₁, h₁, first⟩ := passes.leads rt _ l p h
    obtain ⟨m, t, later, seen⟩ := ih k l₁ p₁ h₁
    rw [append_assoc]
    exact ⟨n + m, t, leads_trans first later, seen⟩
  | @block b rest _ ih =>
    obtain ⟨n, t, leads, seen⟩ := ih (rest.append k) l p (h ++ [])
    exact ⟨n, t, .step rfl leads, seen⟩
  | @«then» g t e rest holds _ ih =>
    obtain ⟨n, t, leads, seen⟩ := ih (rest.append k) ((steer T).assign g.toExpr h l) p (h ++ [])
    refine ⟨n, t, .step ?_ leads, seen⟩
    simp [machine, program, Code.append, execute, steer, holds]
  | @«else» g t e rest fails _ ih =>
    obtain ⟨n, t, leads, seen⟩ := ih (rest.append k) ((steer T).assign g.toExpr h l) p (h ++ [])
    refine ⟨n, t, .step ?_ leads, seen⟩
    simp [machine, program, Code.append, execute, steer, fails]
  | @«while» g b rest holds _ ih =>
    obtain ⟨n, t, leads, seen⟩ :=
      ih (while' g b (rest.append k)) ((steer T).assign g.toExpr h l) p (h ++ [])
    refine ⟨n, t, .step ?_ leads, seen⟩
    simp [machine, program, Code.append, execute, steer, holds]
  | @«for» x i g inc b rest holds _ ih =>
    obtain ⟨n, t, leads, seen⟩ := ih (expr none inc (forLoop g inc b (rest.append k)))
      ((steer T).assign g.toExpr (h ++ []) ((steer T).assign i h l)) p ((h ++ []) ++ [])
    refine ⟨n, t, .step rfl (.step ?_ leads), seen⟩
    simp [machine, program, forLoop, Code.append, append_assoc, execute, steer, holds]

end leads

/-! ## The coroutine as it is written -/

variable {f : Coroutine}

/-- The await of `a` is not run, now or later. -/
def Unseen (f : Coroutine) (T : Nat → Bool) (a : Nat) :
    Flow.State Source (Fin f.count) (fun _ : Local => UInt32) Unit Nat Unit → Prop
  | .running p _ h => p.Bare ∧ (∀ w ∈ awaitsIn p nil, w ∈ awaitsIn f.body nil) ∧ Quiet T a p ∧
    .await a ∉ h
  | .waiting s _ h => Quiet T a (f.graph.after s) ∧ .await a ∉ h
  | .finished _ h => .await a ∉ h

theorem Unseen.out {s : Flow.State Source (Fin f.count) (fun _ : Local => UInt32) Unit Nat Unit}
    (h : Unseen f T a s) : .await a ∉ (s.out (F := Fault)).1 := by
  cases s with
  | running => exact h.2.2.2
  | waiting => exact h.2
  | finished => exact h

theorem quiet_branch {p q : Source} {reads writes : Set Local} {qs : List Source}
    (e : f.graph.node p = .code reads writes q qs) (quiet : Quiet T a p) (h : History Unit Nat)
    (l : Store fun _ : Local => UInt32) :
    Quiet T a ((f.meaning (R := Unit) (steer T)).branch p h l) := by
  cases p with
  | block b rest => exact quiet.1.append quiet.2
  | expr x e' rest => exact quiet
  | if' g t e' rest =>
    dsimp only [Coroutine.meaning, steer]
    split
    · rename_i holds
      exact (quiet.1 holds).append quiet.2.2
    · rename_i fails
      exact (quiet.2.1 (by simpa using fails)).append quiet.2.2
  | while' g b rest =>
    dsimp only [Coroutine.meaning, steer]
    split
    · rename_i holds
      exact (quiet.1 holds).append quiet
    · exact quiet.2
  | for' x i g inc b rest =>
    exact ⟨fun holds => (quiet.1 holds).append trivial, quiet.2⟩
  | _ => trivial

theorem unseen_run (quiet : Quiet T a f.body) (n : Nat) (rs : List Unit)
    (l : Store fun _ : Local => UInt32) : Unseen f T a
      (((f.meaning (steer T)).machine (F := Fault)).run n rs (.running f.body l [])) := by
  apply Machine.run_invariant
  · rintro s s' unseen turn
    cases s with
    | running p l h =>
      obtain ⟨bare, inside, quiet, fresh⟩ := unseen
      cases turn
      cases e : f.graph.node p with
      | code reads writes q qs =>
        rw [Meaning.execute_code e]
        obtain ⟨bare', inside'⟩ := Coroutine.next_spec bare e _ ((f.meaning (steer T)).branch_mem e)
        refine ⟨bare', fun w hw => inside w (inside' w hw), quiet_branch e quiet h l, ?_⟩
        simpa [Coroutine.meaning, steer] using fresh
      | await s =>
        rw [Meaning.execute_await e]
        obtain ⟨e', rest, rfl⟩ := Coroutine.node_await e
        have here := Coroutine.awaitAt_mem (inside _ List.mem_cons_self)
        rw [append_nil] at here
        obtain ⟨after, _⟩ := Coroutine.after_inside here
        refine ⟨after ▸ quiet.2, ?_⟩
        simpa [Coroutine.meaning, here, steer, fresh] using Ne.symm quiet.1
      | ret reads =>
        rw [Meaning.execute_ret e]
        exact fresh
    | waiting => cases turn
    | finished => cases turn
  · rintro s k unseen turn r
    cases s with
    | running => cases turn
    | waiting s l h =>
      cases turn
      obtain ⟨e, r, here⟩ := Coroutine.exists_awaitAt s
      obtain ⟨after, bare, inside⟩ := Coroutine.after_inside here
      exact ⟨after ▸ bare, after ▸ inside, unseen⟩
    | finished => cases turn
  · exact ⟨f.formed.bare, fun _ hw => hw, quiet, List.not_mem_nil⟩

/-! ## What is needed -/

namespace Coroutine

theorem rewritten_spill {r : Code Local} (h : f.rewritten = some r) :
    ∃ c' r', spill f.names f.body = some c' ∧ Resolves f.params c' r' ∧
      r = preamble f.opening r' := by
  have text : (rewriteBody f.opening f.names (bodyText f.body)).bind parseBody =
      (spill f.names f.body).map (preamble f.opening) := parse_rewriteBody _ f.formed
  obtain ⟨ts, rewrote, h⟩ := Option.bind_eq_some_iff.mp h
  obtain ⟨c, parsed, resolved⟩ := Option.bind_eq_some_iff.mp h
  rw [rewrote, Option.bind_some, parsed] at text
  obtain ⟨c', spilled, rfl⟩ := Option.map_eq_some_iff.mp text.symm
  cases resolves resolved with
  | preamble compiled => exact ⟨c', _, spilled, compiled, rfl⟩

/-- An output that runs an await which the coroutine does not run tells them apart. -/
theorem Preserves.absurd {r' : Code Local} (h : f.Preserves)
    (compiled : f.compiled = some (preamble f.opening r')) (quiet : Quiet T a f.body)
    (visits : Visits T a r') : False := by
  let l : Store fun _ : Local => UInt32 := fun _ => 0
  let start := program (R := Unit) (steer T) f.params f.ret (preamble f.opening r')
  have reached : ∃ n t, (machine wordUfser false start).Leads
      (.running ⟨r'.append nil, overlay f.params l l, .initial, []⟩) (answers n) t ∧
      .await a ∈ t.out.1 := visits.leads wordUfser_roundTrips nil _ _ _
  obtain ⟨n, t, leads, seen⟩ := reached
  rw [append_nil] at leads
  obtain ⟨c, compiled', same⟩ :=
    h (steer T) wordUfser_roundTrips false l l (.replicate n (() : Unit))
  cases compiled.symm.trans compiled'
  have moves : List.map Move.resume (.replicate n ()) = answers n := List.map_replicate
  rw [moves] at same
  have turn : (machine wordUfser false start).turn (.running (start.create l l [])) =
      .step (.running ⟨r', overlay f.params l l, .initial, []⟩) := rfl
  obtain ⟨m, reached⟩ := (Machine.Leads.step turn leads).run
  obtain ⟨k, shown⟩ := (same _).mp ⟨m, congrArg _ reached⟩
  have unseen := unseen_run quiet k (.replicate n ()) (overlay f.params l l)
  exact unseen.out (congrArg Prod.fst shown ▸ seen)

theorem Preserves.compiles (h : f.Preserves) : ∃ c, f.compiled = some c := by
  obtain ⟨c, compiled, _⟩ := h (steer fun _ => false) wordUfser_roundTrips false (fun _ => 0)
    (fun _ => 0) ([] : List Unit)
  exact ⟨c, compiled⟩

theorem Preserves.braced (h : f.Preserves) : f.body.Braced true := by
  by_contra unbraced
  obtain ⟨c, compiled⟩ := h.compiles
  obtain ⟨c', r', spilled, resolved, rfl⟩ :=
    rewritten_spill (Option.filter_eq_some_iff.mp compiled).1
  obtain ⟨on, a, _, _, tells⟩ :=
    (straying f.names f.formed f.conds f.operands).all unbraced spilled
  obtain ⟨quiet, visits⟩ := tells (fun n => decide (n ∈ on)) fun _ _ => rfl
  exact h.absurd compiled quiet (visits.resolved resolved)

theorem Preserves.callable (h : f.Preserves) : f.Callable := by
  obtain ⟨c, compiled⟩ := h.compiles
  obtain ⟨rewritten, accepted⟩ := Option.filter_eq_some_iff.mp compiled
  obtain ⟨c', r', spilled, resolved, rfl⟩ := rewritten_spill rewritten
  rw [(spilled_braced f.names f.formed).1 h.braced] at spilled
  cases spilled
  have visible : f.Visible := visible_iff.mpr (resolves_calls_known f.formed.bare resolved)
  rw [Option.some.inj (rewritten.symm.trans (f.rewritten_braced h.braced visible))] at accepted
  exact (accepted_output visible).mp accepted

end Coroutine

/-- `if (in) co_await remote_op(in); co_return in;` -/
def guarded : Coroutine where
  returnType := "ser_ctx<int>"
  ctx := 0
  denotes := intCtx
  params := [⟨0, "in", .plain⟩]
  body := if' ⟨⟨0, [⟨0, "in", .plain⟩], [], .nil⟩, none⟩
    (coawait 0 ⟨1, [⟨0, "in", .plain⟩], [], .nil⟩ nil) nil nil
  ret := ⟨2, [⟨0, "in", .plain⟩], [], .nil⟩
  formed := by simp [Formed, Single, head]
  whole := by simp [Whole, Forest.Awaitless]
  named := by decide
  returns := by decide
  numbered := by decide
  awaited := by decide
  conds := by decide
  operands := by decide

end Valor.Valet
