import Valor.Valet.Output
import Valor.Valet.Scopes

/-! The stages of a coroutine and the scopes of its statements: the names that are saved at a
`co_await` are those of what Valet takes to be in scope there. -/
namespace Valor.Valet

open Code

/-- The names declared in a context, innermost first. -/
def Context.names (c : Context) : List String := c.env.map fun p => p.1.name

namespace Forest

theorem Awaitless.findAwaits {F : Forest} (h : F.Awaitless) (n : Nat) (blocks : List Nat)
    (nested : Bool) : F.findAwaits n blocks nested = [] := by
  induction F generalizing n blocks nested with
  | nil => rfl
  | compound _ _ ih ih' | var _ _ _ _ ih ih' | function _ _ _ ih ih' | node _ _ ih ih' =>
    simp only [Forest.findAwaits, ih h.1, ih' h.2, List.append_nil]
  | coawait => exact h.elim

theorem Awaitless.sites {F : Forest} (h : F.Awaitless) (n blk prev : Nat) (blocks : List Nat)
    (ctx : Context) : F.sites n blk prev blocks ctx = [] := by
  have none := F.sites_aw n blk prev blocks ctx
  rw [h.findAwaits] at none
  exact List.map_eq_nil_iff.mp none

end Forest

/-- Behind an expression the variable that it initializes is in scope. -/
theorem node_sites (e : Expr) (x : Option Local) (whole : e.inner.Awaitless) (F : Forest)
    (n blk prev : Nat) (blocks : List Nat) (ctx : Context) {env : List Local}
    (same : ctx.names = env.map Local.name) : ∃ n' prev' ctx',
      (e.node x F).sites n blk prev blocks ctx = F.sites n' blk prev' blocks ctx' ∧
        ctx'.names = (declare x env).map Local.name := by
  let ctx' := ctx.ended blk (e.inner.findVars (n + 1) blk (n + 1))
  have known : ctx'.names = env.map Local.name := same
  cases x with
  | none =>
    refine ⟨n + 1 + e.inner.size, n + 1 + e.inner.size, ctx', ?_, known⟩
    simp only [Expr.node, Forest.sites, whole.sites, List.nil_append, ctx']
  | some x =>
    refine ⟨n + 1 + e.inner.size, n, ctx'.declared (Declarator.first.decl n blk prev x.name), ?_,
      congrArg (x.name :: ·) known⟩
    simp only [Expr.node, Forest.sites, whole.sites, List.nil_append, Declarator.start, ctx']

/-- The matchers see the same declarations in scope as name lookup does. -/
theorem forest_sites {c : Source} (whole : c.Whole) (ctx : Context) (n blk prev : Nat)
    (blocks : List Nat) {env : List Local} (same : ctx.names = env.map Local.name) :
    ((forest c).sites n blk prev blocks ctx).map (fun t => t.context.names) =
      (scopes env c).map fun p => p.2.map Local.name := by
  induction c generalizing ctx n blk prev blocks env with
  | nil => rfl
  | block b rest ih ih' =>
    simp only [forest, Forest.sites, scopes, List.map_append]
    rw [ih whole.1 ctx _ _ _ _ same, ih' whole.2 (ctx.ended _ _) _ _ _ _ same]
  | expr x e rest ih =>
    obtain ⟨n', prev', ctx', sites, names⟩ :=
      node_sites e x whole.1 (forest rest) n blk prev blocks ctx same
    rw [forest, sites]
    exact ih whole.2 ctx' n' blk prev' blocks names
  | coawait s e rest ih =>
    simp only [forest, Forest.sites, scopes, List.map_cons, whole.1.sites, List.nil_append]
    rw [ih whole.2 (ctx.ended _ _) _ _ _ _ same, same]
  | if' g t e rest iht ihe ih =>
    obtain ⟨inner, wholeT, wholeE, later⟩ := whole
    obtain ⟨n', prev', ctx', sites, names⟩ := node_sites g.toExpr g.var inner
      (.node (forest t) (.node (forest e) .nil)) (n + 1) blk (n + 1) blocks ctx same
    simp only [forest, Cond.node, Forest.sites, sites, scopes, List.map_append, List.append_nil,
      List.append_assoc]
    rw [iht wholeT ctx' _ _ _ _ names, ihe wholeE (ctx'.ended _ _) _ _ _ _ names,
      ih later (ctx.ended _ _) _ _ _ _ same]
  | while' g b rest ihb ih =>
    obtain ⟨inner, wholeB, later⟩ := whole
    obtain ⟨n', prev', ctx', sites, names⟩ := node_sites g.toExpr g.var inner
      (.node (forest b) .nil) (n + 1) blk (n + 1) blocks ctx same
    simp only [forest, Cond.node, Forest.sites, sites, scopes, List.map_append, List.append_nil]
    rw [ihb wholeB ctx' _ _ _ _ names, ih later (ctx.ended _ _) _ _ _ _ same]
  | for' x i g inc b rest ihb ih =>
    obtain ⟨innerI, innerG, innerInc, wholeB, later⟩ := whole
    obtain ⟨n', prev', ctx', sites, names⟩ := node_sites i x innerI
      (g.toExpr.node g.var (.node inc.inner (.node (forest b) .nil))) (n + 1) blk (n + 1) blocks
      ctx same
    obtain ⟨n₂, prev₂, ctx₂, sites₂, names₂⟩ := node_sites g.toExpr g.var innerG
      (.node inc.inner (.node (forest b) .nil)) n' blk prev' blocks ctx' names
    simp only [forest, Forest.sites, sites, Cond.node, sites₂, innerInc.sites, scopes,
      List.map_append, List.append_nil, List.nil_append]
    rw [ihb wholeB (ctx₂.ended _ _) _ _ _ _ names₂, ih later (ctx.ended _ _) _ _ _ _ same]
  | save _ _ _ ih | load _ _ _ ih | preamble _ _ ih =>
    exact ih whole (ctx.ended _ _) _ _ _ _ same

theorem scopes_numbers (c k : Source) (env : List Local) :
    (scopes env c).map Prod.fst = (awaitsIn c k).map Prod.fst := by
  induction c generalizing k env with
  | nil => rfl
  | coawait s e rest ih => exact congrArg (s :: ·) (ih k env)
  | expr x e rest ih => exact ih k _
  | save _ _ _ ih | load _ _ _ ih | preamble _ _ ih => exact ih k env
  | block b rest ih ih' | while' _ b rest ih ih' | for' _ _ _ _ b rest ih ih' =>
    simp only [scopes, awaitsIn, List.map_append]
    rw [ih, ih']
  | if' g t e rest iht ihe ih =>
    simp only [scopes, awaitsIn, List.map_append]
    rw [iht, ihe, ih]

theorem node_awaits (e : Expr) (x : Option Local) (whole : e.inner.Awaitless) {F : Forest}
    (own : ∀ n blocks, ∀ aw ∈ F.findAwaits n blocks false, aw.nested = false) (n : Nat)
    (blocks : List Nat) : ∀ aw ∈ (e.node x F).findAwaits n blocks false, aw.nested = false := by
  cases x <;> simpa [Expr.node, Forest.findAwaits, whole.findAwaits] using own _ _

theorem forest_awaits {c : Source} (whole : c.Whole) (n : Nat) (blocks : List Nat) :
    ∀ aw ∈ (forest c).findAwaits n blocks false, aw.nested = false := by
  induction c generalizing n blocks with
  | nil => simp [forest, Forest.findAwaits]
  | block _ _ ih ih' =>
    simpa [forest, Forest.findAwaits, or_imp, forall_and] using ⟨ih whole.1 _ _, ih' whole.2 _ _⟩
  | expr x e _ ih => exact node_awaits e x whole.1 (ih whole.2) n blocks
  | coawait _ _ _ ih => simpa [forest, Forest.findAwaits, whole.1.findAwaits] using ih whole.2 _ _
  | if' g t e _ iht ihe ih =>
    obtain ⟨inner, wholeT, wholeE, later⟩ := whole
    have header := node_awaits g.toExpr g.var inner (F := .node (forest t) (.node (forest e) .nil))
      fun n blocks => by
        simpa [Forest.findAwaits, or_imp, forall_and] using ⟨iht wholeT _ _, ihe wholeE _ _⟩
    simpa [forest, Forest.findAwaits, Cond.node, or_imp, forall_and] using
      ⟨header _ _, ih later _ _⟩
  | while' g b _ ihb ih =>
    obtain ⟨inner, wholeB, later⟩ := whole
    have header := node_awaits g.toExpr g.var inner (F := .node (forest b) .nil)
      fun n blocks => by simpa [Forest.findAwaits] using ihb wholeB _ _
    simpa [forest, Forest.findAwaits, Cond.node, or_imp, forall_and] using
      ⟨header _ _, ih later _ _⟩
  | for' x i g inc b _ ihb ih =>
    obtain ⟨innerI, innerG, innerInc, wholeB, later⟩ := whole
    have header := node_awaits i x innerI (node_awaits g.toExpr g.var innerG
      (F := .node inc.inner (.node (forest b) .nil)) fun n blocks => by
        simpa [Forest.findAwaits, innerInc.findAwaits] using ihb wholeB _ _)
    simpa [forest, Forest.findAwaits, Cond.node, or_imp, forall_and] using
      ⟨header _ _, ih later _ _⟩
  | save _ _ _ ih | load _ _ _ ih | preamble _ _ ih =>
    simpa [forest, Forest.findAwaits] using ih whole _ _

namespace Coroutine

variable (f : Coroutine)

theorem sites_awaits : f.decl.sites.map Site.aw = f.decl.awaits := by
  rw [FunctionDecl.sites_aw]
  exact List.filter_eq_self.mpr fun aw mem => by simp [forest_awaits f.whole _ _ aw mem]

theorem stages_awaits : f.stages.map Stage.aw = f.decl.awaits := by
  have one : TranslationUnit.matches' [f.decl] = f.decl.matches' 0 := by
    simp [TranslationUnit.matches']
  rw [stages, one, collect_awaits]

theorem sites_names : f.decl.sites.map (fun t => t.context.names) =
    (scopes f.params f.body).map fun p => p.2.map Local.name := by
  apply forest_sites f.whole
  have names (n : Nat) (xs : List String) : (parmDecls n 0 xs).map VarDecl.name = xs := by
    induction xs generalizing n with
    | nil => rfl
    | cons x xs ih => exact congrArg (x :: ·) (ih (n + 1))
  simp only [Context.names, FunctionDecl.parms, List.map_map]
  exact names 1 _

theorem stages_count : f.stages.length = f.count := by
  have stages := congrArg List.length f.stages_awaits
  have sites := congrArg List.length f.sites_awaits
  have names := congrArg List.length f.sites_names
  have numbers := congrArg List.length (scopes_numbers f.body nil f.params)
  simp only [List.length_map] at stages sites names numbers
  have count : f.count = (awaitsIn f.body nil).length := List.length_map _
  omega

theorem opening_eq : f.opening = ⟨f.returnType, f.count⟩ := by
  rw [opening, stages_count]

variable {f} {s : Nat}

theorem stage_at {t : Site} (site : f.decl.sites[s]? = some t) :
    ∃ env, (s, env) ∈ scopes f.params f.body ∧ t.context.names = env.map Local.name ∧
      (f.names s).Perm (t.context.vars.map VarDecl.name) := by
  -- The scope.
  have names := congrArg (·[s]?) f.sites_names
  simp only [List.getElem?_map, site, Option.map_some] at names
  obtain ⟨⟨s', env⟩, found, same⟩ := Option.map_eq_some_iff.mp names.symm
  have number : s' = s := by
    have numbers : (scopes f.params f.body).map Prod.fst = List.range f.count :=
      (scopes_numbers f.body nil f.params).trans f.numbered
    have number := congrArg (·[s]?) numbers
    simp only [List.getElem?_map, found, Option.map_some] at number
    obtain ⟨_, number⟩ := List.getElem?_eq_some_iff.mp number.symm
    simpa using number.symm
  refine ⟨env, number ▸ List.mem_of_getElem? found, same.symm, ?_⟩
  -- The stage.
  have awaits := congrArg (·[s]?) (f.stages_awaits.trans f.sites_awaits.symm)
  simp only [List.getElem?_map, site, Option.map_some] at awaits
  obtain ⟨st, stage, aw⟩ := Option.map_eq_some_iff.mp awaits
  obtain ⟨_, collected⟩ := collect_spec (u := [f.decl]) (i := 0) rfl (List.Perm.refl _)
  have vars := (collected st (List.mem_of_getElem? stage)).2
  rw [aw] at vars
  have accepted := f.decl.accepted_at t (List.mem_of_getElem? site)
  simp only [Coroutine.names, stage, Option.map_some, Option.getD_some]
  exact (vars.trans accepted).map _

theorem scopes_nodup (f : Coroutine) : ((scopes f.params f.body).map Prod.fst).Nodup :=
  (scopes_numbers f.body nil f.params).symm ▸ f.numbers_nodup

theorem site_of {env : List Local} (mem : (s, env) ∈ scopes f.params f.body) :
    ∃ t, f.decl.sites[s]? = some t ∧ t.context.names = env.map Local.name ∧
      (f.names s).Perm (t.context.vars.map VarDecl.name) := by
  have number : s ∈ f.body.numbers := by
    rw [Code.numbers, ← scopes_numbers f.body nil f.params]
    exact List.mem_map_of_mem (f := Prod.fst) mem
  have lengths : f.decl.sites.length = f.count := by
    have stages := congrArg List.length (f.stages_awaits.trans f.sites_awaits.symm)
    simp only [List.length_map] at stages
    exact stages.symm.trans f.stages_count
  have lt : s < f.decl.sites.length := lengths ▸ mem_numbers.mp number
  obtain ⟨env', mem', names, saved⟩ := stage_at (List.getElem?_eq_getElem lt)
  have same : (s, env') = (s, env) :=
    List.inj_on_of_nodup_map f.scopes_nodup mem' mem rfl
  cases same
  exact ⟨_, List.getElem?_eq_getElem lt, names, saved⟩

end Coroutine

/-! ## What the names denote -/

theorem lookup_isSome {env : List Local} {name : String} :
    (lookup env name).isSome ↔ name ≠ "" ∧ name ∈ env.map Local.name := by
  by_cases empty : name = "" <;> simp [lookup, empty]

theorem Context.lookup_isSome {c : Context} {name : String} :
    (c.lookup name).isSome ↔ name ≠ "" ∧ name ∈ c.names := by
  by_cases empty : name = "" <;> simp [lookup, names, empty]

namespace Coroutine

/-- What is declared at an await. -/
def scope (f : Coroutine) (s : Nat) : List Local :=
  (((scopes f.params f.body).find? fun p => p.1 = s).map Prod.snd).getD []

/-- What the calls at an await save and load. -/
def locals (f : Coroutine) (s : Nat) : List Local :=
  ((f.names s).mapM (lookup (f.scope s))).getD []

/-- All that Valet saves is in scope where it is saved. -/
def Visible (f : Coroutine) : Prop :=
  ∀ t ∈ f.decl.sites, ∀ v ∈ t.context.vars, (t.context.lookup v.name).isSome

variable {f : Coroutine}

theorem scope_mem {s : Nat} {env : List Local} (mem : (s, env) ∈ scopes f.params f.body) :
    f.scope s = env := by
  rw [scope, find_key (p := (s, env)) f.scopes_nodup mem]
  rfl

theorem visible_iff : f.Visible ↔
    ∀ p ∈ scopes f.params f.body, ∀ name ∈ f.names p.1, (lookup p.2 name).isSome := by
  constructor
  · rintro visible ⟨s, env⟩ mem name saved
    obtain ⟨t, site, names, all⟩ := site_of mem
    obtain ⟨v, hv, rfl⟩ := List.mem_map.mp (all.mem_iff.mp saved)
    have seen := Context.lookup_isSome.mp (visible t (List.mem_of_getElem? site) v hv)
    rw [names] at seen
    exact lookup_isSome.mpr seen
  · intro known t mem v hv
    obtain ⟨s, site⟩ := List.mem_iff_getElem?.mp mem
    obtain ⟨env, here, names, all⟩ := stage_at site
    have seen := lookup_isSome.mp (known _ here _ (all.mem_iff.mpr (List.mem_map_of_mem hv)))
    rw [← names] at seen
    exact Context.lookup_isSome.mpr seen

/-- What Valet makes of a coroutine without unbraced `co_await`s. -/
theorem rewritten_braced (braced : f.body.Braced true) (visible : f.Visible) :
    f.rewritten = some (f.output f.locals) := by
  have text : (rewriteBody f.opening f.names (bodyText f.body)).bind parseBody =
      (spill f.names f.body).map (preamble f.opening) := parse_rewriteBody _ f.formed
  rw [(spilled_braced f.names f.formed).1 braced] at text
  obtain ⟨ts, rewrote, parsed⟩ := Option.bind_eq_some_iff.mp text
  have known : ∀ p ∈ scopes f.params f.body,
      (f.names p.1).mapM (lookup p.2) = some (f.locals p.1) := by
    rintro ⟨s, env⟩ mem
    have all := mapM_isSome.mpr (visible_iff.mp visible (s, env) mem)
    obtain ⟨vars, found⟩ := Option.isSome_iff_exists.mp all
    simp only [locals, scope_mem mem, found, Option.getD_some]
  obtain ⟨r, compiled⟩ := Option.isSome_iff_exists.mp f.named
  have resolved := (resolves_calls f.formed.bare (resolves compiled) known).resolved
  rw [output, ← opening_eq]
  simp [rewritten, rewrote, parsed, resolve, resolved]

end Coroutine

end Valor.Valet
