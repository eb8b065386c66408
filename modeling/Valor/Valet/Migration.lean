import Mathlib.Data.UInt
import Valor.Valet.Locals

/-! Migration of a coroutine as Valet leaves it. In blocks, and with names that are all
different, Valet's approximation of the scopes is exact, so what is live at a `co_await` has
been saved there. -/
namespace Valor.Valet

open Reactive Flow Code Rewritten

variable {N : Type} {Val : Local → Type} {View Ev X R V : Type}

/-- Nothing is declared below the node. -/
def Forest.Varless : Forest → Prop
  | nil => True
  | compound body rest => Varless body ∧ Varless rest
  | var _ _ _ _ => False
  | function params body rest => params = [] ∧ Varless body ∧ Varless rest
  | coawait operand rest => Varless operand ∧ Varless rest
  | node children rest => Varless children ∧ Varless rest

theorem Forest.Varless.findVars {F : Forest} (h : F.Varless) (n blk prev : Nat) :
    F.findVars n blk prev = [] := by
  induction F generalizing n blk prev with
  | nil => rfl
  | var => exact h.elim
  | function _ _ _ ih ih' =>
    obtain ⟨rfl, body, rest⟩ := h
    simp only [Forest.findVars, parmDecls, ih body, ih' rest, List.append_nil]
  | compound _ _ ih ih' | coawait _ _ ih ih' | node _ _ ih ih' =>
    simp only [Forest.findVars, ih h.1, ih' h.2, List.append_nil]

namespace Code

def IsBlock : Code N → Prop
  | block _ nil => True
  | _ => False

/-- Conditions and loops have braced bodies, and there is nothing declared in a condition or
inside an expression, so that declarations stand directly in blocks. -/
def Structured : Code N → Prop
  | nil => True
  | block b rest => Structured b ∧ Structured rest
  | expr _ e rest | coawait _ e rest => e.inner.Varless ∧ Structured rest
  | if' c t e rest => (c.inner.Varless ∧ c.var = none) ∧
    t.IsBlock ∧ (e = nil ∨ e.IsBlock) ∧ Structured t ∧ Structured e ∧ Structured rest
  | while' c b rest =>
    (c.inner.Varless ∧ c.var = none) ∧ b.IsBlock ∧ Structured b ∧ Structured rest
  | for' _ _ _ _ _ _ | save _ _ _ | load _ _ _ | preamble _ _ => False

def declared : Code N → List Local
  | nil => []
  | expr x _ rest => x.toList ++ declared rest
  | coawait _ _ rest | save _ _ rest | load _ _ rest | preamble _ rest => declared rest
  | block b rest => declared b ++ declared rest
  | while' c b rest => c.var.toList ++ (declared b ++ declared rest)
  | if' c t e rest => c.var.toList ++ (declared t ++ (declared e ++ declared rest))
  | for' x _ c _ b rest => x.toList ++ (c.var.toList ++ (declared b ++ declared rest))

/-- A declaration gives its variable a value, and does not read it before. -/
def Initialized : Code N → Prop
  | nil => True
  | expr x e rest => (∀ y ∈ x, y ∈ e.writes ∧ y ∉ e.reads) ∧ Initialized rest
  | coawait _ _ rest | save _ _ rest | load _ _ rest | preamble _ rest => Initialized rest
  | block b rest | while' _ b rest => Initialized b ∧ Initialized rest
  | if' _ t e rest => Initialized t ∧ Initialized e ∧ Initialized rest
  | for' x i _ _ b rest =>
    (∀ y ∈ x, y ∈ i.writes ∧ y ∉ i.reads) ∧ Initialized b ∧ Initialized rest

theorem Structured.braced {c : Code N} (h : c.Structured) :
    c.Braced true ∧ (c.IsBlock → c.Braced false) := by
  induction c with
  | nil => exact ⟨trivial, nofun⟩
  | block b rest ih ih' =>
    refine ⟨⟨(ih h.1).1, (ih' h.2).1⟩, fun single => ?_⟩
    cases rest with
    | nil => exact ⟨(ih h.1).1, trivial⟩
    | _ => exact single.elim
  | expr _ _ _ ih => exact ⟨(ih h.2).1, nofun⟩
  | coawait _ _ _ ih => exact ⟨⟨rfl, (ih h.2).1⟩, nofun⟩
  | if' _ _ e _ iht ihe ih =>
    obtain ⟨_, blockT, blockE, ht, he, hrest⟩ := h
    refine ⟨⟨(iht ht).2 blockT, ?_, (ih hrest).1⟩, nofun⟩
    rcases blockE with rfl | blockE
    · trivial
    · exact (ihe he).2 blockE
  | while' _ _ _ ihb ih =>
    obtain ⟨_, block', hb, hrest⟩ := h
    exact ⟨⟨(ihb hb).2 block', (ih hrest).1⟩, nofun⟩
  | _ => exact h.elim

end Code

/-- The coroutines whose migrations are transparent. -/
structure Coroutine.Plain (f : Coroutine) : Prop where
  structured : f.body.Structured
  named : ∀ x ∈ f.params ++ f.body.declared, x.name ≠ ""
  distinct : ((f.params ++ f.body.declared).map Local.name).Nodup
  initialized : f.body.Initialized

/-! ## Valet's view of the scopes -/

theorem Cond.node_plain {c : Cond} (h : c.var = none) (F : Forest) :
    c.node F = .node c.inner F := by
  rw [Cond.node, h, Expr.node]

theorem forest_parm {c : Source} (h : c.Structured) (n blk prev : Nat) :
    ∀ v ∈ (forest c).findVars n blk prev, v.parm = false := by
  induction c generalizing n blk prev with
  | nil => simp [forest, Forest.findVars]
  | block _ _ ih ih' =>
    simpa [forest, Forest.findVars, or_imp, forall_and] using ⟨ih h.1 _ _ _, ih' h.2 _ _ _⟩
  | expr x _ _ ih =>
    cases x with
    | none => simpa [forest, Expr.node, Forest.findVars, h.1.findVars] using ih h.2 _ _ _
    | some x =>
      simpa [forest, Expr.node, Forest.findVars, Declarator.decl, h.1.findVars] using ih h.2 _ _ _
  | coawait _ _ _ ih => simpa [forest, Forest.findVars, h.1.findVars] using ih h.2 _ _ _
  | if' _ _ _ _ iht ihe ih =>
    obtain ⟨⟨inner, var⟩, _, _, ht, he, hrest⟩ := h
    simpa [forest, Cond.node_plain var, Forest.findVars, inner.findVars, or_imp, forall_and] using
      ⟨iht ht _ _ _, ihe he _ _ _, ih hrest _ _ _⟩
  | while' _ _ _ ihb ih =>
    obtain ⟨⟨inner, var⟩, _, hb, hrest⟩ := h
    simpa [forest, Cond.node_plain var, Forest.findVars, inner.findVars, or_imp, forall_and] using
      ⟨ihb hb _ _ _, ih hrest _ _ _⟩
  | _ => exact h.elim

theorem ended_away (ctx : Context) {blk : Nat} {vs : List VarDecl}
    (away : ∀ v ∈ vs, v.parm = false ∧ v.block ≠ blk) : ctx.ended blk vs = ctx := by
  have none : vs.filter (fun v => v.parm || v.block = blk) = [] :=
    List.filter_eq_nil_iff.mpr fun v mem => by simp [away v mem]
  simp [Context.ended, none]

@[simp] theorem ended_nil (ctx : Context) (blk : Nat) : ctx.ended blk [] = ctx :=
  ended_away ctx (by simp)

theorem block_away {t : Source} (h : t.Structured) (block' : t = nil ∨ t.IsBlock) {blk m : Nat}
    (lt : blk < m) (prev : Nat) :
    ∀ v ∈ (forest t).findVars m blk prev, v.parm = false ∧ v.block ≠ blk := by
  intro v mem
  refine ⟨forest_parm h _ _ _ v mem, ?_⟩
  cases t with
  | nil => cases mem
  | block b rest =>
    cases rest with
    | nil =>
      simp only [forest, Forest.findVars, List.append_nil] at mem
      have placed := (forest b).findVars_placed (m + 1) m (m + 1) (Nat.le_refl _) v mem
      rcases placed.block with same | ⟨le, _⟩ <;> omega
    | _ => exact absurd block' (by simp [IsBlock])
  | _ => exact absurd block' (by simp [IsBlock])

/-- Nothing but what is in scope is in sight. -/
theorem structured_sites {c : Source} (h : c.Structured) (whole : c.Whole) {ctx : Context}
    {n blk : Nat} (lt : blk < n) (prev : Nat) (blocks : List Nat)
    (exact' : ctx.upcoming = [] ∧ ctx.stale = []) :
    ∀ t ∈ (forest c).sites n blk prev blocks ctx,
      t.context.upcoming = [] ∧ t.context.stale = [] := by
  induction c generalizing ctx n blk prev blocks with
  | nil => simp [forest, Forest.sites]
  | block b rest ih ih' =>
    have away := block_away (t := block b nil) ⟨h.1, trivial⟩ (.inr trivial) lt prev
    simp only [forest, Forest.findVars, List.append_nil] at away
    simp only [forest, Forest.sites, ended_away ctx away, List.forall_mem_append]
    exact ⟨ih h.1 whole.1 (Nat.lt_succ_self n) _ _ exact', ih' h.2 whole.2 (by omega) _ _ exact'⟩
  | expr x e rest ih =>
    cases x with
    | none =>
      simp only [forest, Expr.node, Forest.sites, whole.1.sites, h.1.findVars, ended_nil,
        List.nil_append]
      exact ih h.2 whole.2 (by omega) _ _ exact'
    | some x =>
      simp only [forest, Expr.node, Forest.sites, whole.1.sites, h.1.findVars, ended_nil,
        List.nil_append]
      exact ih h.2 whole.2 (by omega) _ _ exact'
  | coawait s e rest ih =>
    simp only [forest, Forest.sites, whole.1.sites, h.1.findVars, ended_nil, List.nil_append,
      List.forall_mem_cons]
    exact ⟨exact', ih h.2 whole.2 (by omega) _ _ exact'⟩
  | if' g t e rest iht ihe ih =>
    obtain ⟨⟨inner, var⟩, blockT, blockE, ht, he, hrest⟩ := h
    obtain ⟨wholeG, wholeT, wholeE, later⟩ := whole
    have awayT := block_away ht (.inr blockT) (show blk < n + 1 + 1 + g.inner.size + 1 by omega)
      (n + 1 + 1 + g.inner.size + 1)
    have awayE := block_away he blockE
      (show blk < n + 1 + 1 + g.inner.size + 1 + (forest t).size + 1 by omega)
      (n + 1 + 1 + g.inner.size + 1 + (forest t).size + 1)
    have away := List.forall_mem_append.mpr ⟨awayT, awayE⟩
    simp only [forest, Cond.node_plain var, Forest.sites, Forest.findVars, inner.findVars,
      wholeG.sites, List.nil_append, List.append_nil, ended_nil, ended_away ctx awayT,
      ended_away ctx away, List.forall_mem_append]
    exact ⟨⟨iht ht wholeT (by omega) _ _ exact', ihe he wholeE (by omega) _ _ exact'⟩,
      ih hrest later (by omega) _ _ exact'⟩
  | while' g b rest ihb ih =>
    obtain ⟨⟨inner, var⟩, block', hb, hrest⟩ := h
    obtain ⟨wholeG, wholeB, later⟩ := whole
    have away := block_away hb (.inr block') (show blk < n + 1 + 1 + g.inner.size + 1 by omega)
      (n + 1 + 1 + g.inner.size + 1)
    simp only [forest, Cond.node_plain var, Forest.sites, Forest.findVars, inner.findVars,
      wholeG.sites, List.nil_append, List.append_nil, ended_nil, ended_away ctx away,
      List.forall_mem_append]
    exact ⟨ihb hb wholeB (by omega) _ _ exact', ih hrest later (by omega) _ _ exact'⟩
  | _ => exact h.elim

theorem declare_subperm {x : Option Local} {l env as : List Local}
    (h : l.Subperm (declare x env ++ as)) : l.Subperm (env ++ (x.toList ++ as)) := by
  refine h.trans (List.Perm.subperm ?_)
  rw [declare, ← List.append_assoc]
  exact List.perm_append_comm.append_right as

theorem scopes_declared (c : Source) (env : List Local) :
    ∀ p ∈ scopes env c, p.2.Subperm (env ++ c.declared) := by
  have first {l env as bs : List Local} (h : l.Subperm (env ++ as)) :
      l.Subperm (env ++ (as ++ bs)) :=
    h.trans ((List.sublist_append_left as bs).append_left env).subperm
  have second {l env as bs : List Local} (h : l.Subperm (env ++ bs)) :
      l.Subperm (env ++ (as ++ bs)) :=
    h.trans ((List.sublist_append_right as bs).append_left env).subperm
  induction c generalizing env with
  | nil => simp [scopes]
  | expr x e rest ih => exact fun p mem => declare_subperm (ih _ p mem)
  | coawait s e rest ih =>
    exact List.forall_mem_cons.mpr ⟨(List.sublist_append_left _ _).subperm, ih env⟩
  | save _ _ _ ih | load _ _ _ ih | preamble _ _ ih => exact ih env
  | block b rest ih ih' =>
    exact List.forall_mem_append.mpr
      ⟨fun p mem => first (ih env p mem), fun p mem => second (ih' env p mem)⟩
  | while' g b rest ihb ih =>
    exact List.forall_mem_append.mpr
      ⟨fun p mem => declare_subperm (first (ihb _ p mem)),
        fun p mem => second (second (ih env p mem))⟩
  | if' g t e rest iht ihe ih =>
    refine List.forall_mem_append.mpr ⟨fun p mem => declare_subperm (first (iht _ p mem)), ?_⟩
    exact List.forall_mem_append.mpr
      ⟨fun p mem => declare_subperm (second (first (ihe _ p mem))),
        fun p mem => second (second (second (ih env p mem)))⟩
  | for' x i g inc b rest ihb ih =>
    exact List.forall_mem_append.mpr
      ⟨fun p mem => declare_subperm (declare_subperm (first (ihb _ p mem))),
        fun p mem => second (second (second (ih env p mem)))⟩

namespace Coroutine.Plain

variable {f : Coroutine} (plain : f.Plain) {s : Nat} {env : List Local}

include plain

theorem scope_distinct (mem : (s, env) ∈ scopes f.params f.body) :
    (env.map Local.name).Nodup ∧ ∀ x ∈ env, x.name ≠ "" := by
  obtain ⟨part, perm, sub⟩ := scopes_declared f.body f.params (s, env) mem
  have distinct := plain.distinct.sublist (sub.map Local.name)
  refine ⟨(perm.map _).nodup_iff.mp distinct, fun x hx => ?_⟩
  exact plain.named x (sub.subset (perm.mem_iff.mpr hx))

theorem names_scope (mem : (s, env) ∈ scopes f.params f.body) :
    (f.names s).Perm (env.map Local.name) := by
  obtain ⟨t, site, names, saved⟩ := site_of mem
  have start : 0 < f.decl.start := by simp [FunctionDecl.start]
  have inSight : t.context.upcoming = [] ∧ t.context.stale = [] :=
    structured_sites plain.structured f.whole start _ _ ⟨rfl, rfl⟩ t (List.mem_of_getElem? site)
  have vars : t.context.vars.map VarDecl.name = t.context.names := by
    simp [Context.vars, Context.names, inSight]
  rwa [vars, names] at saved

theorem lookup_scope (mem : (s, env) ∈ scopes f.params f.body) {x : Local} (hx : x ∈ env) :
    lookup env x.name = some x := by
  obtain ⟨distinct, named⟩ := plain.scope_distinct mem
  rw [lookup, if_neg (named x hx)]
  cases found : env.find? fun y => y.name = x.name with
  | none => simpa using List.find?_eq_none.mp found x hx
  | some y =>
    have name : y.name = x.name := by simpa using List.find?_some found
    rw [List.inj_on_of_nodup_map distinct (List.mem_of_find?_eq_some found) hx name]

theorem visible : f.Visible := by
  refine visible_iff.mpr ?_
  rintro ⟨s, env⟩ mem name saved
  obtain ⟨x, hx, rfl⟩ := List.mem_map.mp ((plain.names_scope mem).mem_iff.mp saved)
  simp [plain.lookup_scope mem hx]

theorem scope_saved (mem : (s, env) ∈ scopes f.params f.body) : ∀ x ∈ env, x ∈ f.locals s := by
  intro x hx
  have saved := (plain.names_scope mem).mem_iff.mpr (List.mem_map_of_mem hx)
  have all := mapM_isSome.mpr (visible_iff.mp plain.visible (s, env) mem)
  obtain ⟨vars, found⟩ := Option.isSome_iff_exists.mp all
  simp only [locals, scope_mem mem, found, Option.getD_some]
  exact (mem_mapM found).mpr ⟨_, saved, plain.lookup_scope mem hx⟩

end Coroutine.Plain

/-! ## What is live is in scope -/

/-- Everything that is read, in the end by the return, is in `env` or gets a value before. -/
def Scoped (ret : List Local) : List Local → Source → Prop
  | env, nil => ret ⊆ env
  | env, block b rest => Scoped [] env b ∧ Scoped ret env rest
  | env, expr x e rest =>
    e.reads ⊆ declare x env ∧ (∀ y ∈ x, y ∈ e.writes ∧ y ∉ e.reads) ∧
      Scoped ret (declare x env) rest
  | env, coawait _ e rest => e.reads ⊆ env ∧ Scoped ret env rest
  | env, if' c t e rest => (c.reads ⊆ env ∧ c.var = none) ∧
    Scoped [] env t ∧ Scoped [] env e ∧ Scoped ret env rest
  | env, while' c b rest =>
    (c.reads ⊆ env ∧ c.var = none) ∧ Scoped [] env b ∧ Scoped ret env rest
  | _, for' _ _ _ _ _ _ | _, save _ _ _ | _, load _ _ _ | _, preamble _ _ => False

variable {ret env env' : List Local} {c k : Source}

theorem declare_mono (x : Option Local) (sub : env ⊆ env') : declare x env ⊆ declare x env' :=
  List.append_subset.mpr ⟨List.subset_append_left _ _,
    List.Subset.trans sub (List.subset_append_right _ _)⟩

theorem Scoped.mono (h : Scoped ret env c) (sub : env ⊆ env') : Scoped ret env' c := by
  induction c generalizing ret env env' with
  | nil => exact List.Subset.trans h sub
  | block b rest ih ih' => exact ⟨ih h.1 sub, ih' h.2 sub⟩
  | expr x e rest ih =>
    obtain ⟨reads, init, hrest⟩ := h
    exact ⟨List.Subset.trans reads (declare_mono x sub), init, ih hrest (declare_mono x sub)⟩
  | coawait s e rest ih => exact ⟨List.Subset.trans h.1 sub, ih h.2 sub⟩
  | if' g t e rest iht ihe ih =>
    obtain ⟨⟨reads, var⟩, ht, he, hrest⟩ := h
    exact ⟨⟨List.Subset.trans reads sub, var⟩, iht ht sub, ihe he sub, ih hrest sub⟩
  | while' g b rest ihb ih =>
    obtain ⟨⟨reads, var⟩, hb, hrest⟩ := h
    exact ⟨⟨List.Subset.trans reads sub, var⟩, ihb hb sub, ih hrest sub⟩
  | _ => exact h.elim

theorem Scoped.append (h : Scoped [] env c) (h' : Scoped ret env k) :
    Scoped ret env (c.append k) := by
  induction c generalizing env with
  | nil => exact h'
  | block b rest _ ih => exact ⟨h.1, ih h.2 h'⟩
  | expr x e rest ih =>
    exact ⟨h.1, h.2.1, ih h.2.2 (h'.mono (List.subset_append_right _ _))⟩
  | coawait s e rest ih => exact ⟨h.1, ih h.2 h'⟩
  | if' g t e rest _ _ ih => exact ⟨h.1, h.2.1, h.2.2.1, ih h.2.2.2 h'⟩
  | while' g b rest _ ih => exact ⟨h.1, h.2.1, ih h.2.2 h'⟩
  | _ => exact h.elim

/-- What is done after an await is scoped where the await stands. -/
theorem Scoped.after (h : Scoped ret env (c.append k)) {s : Nat} {e : Expr} {r : Source}
    (mem : (s, e, r) ∈ awaitsIn c k) :
    ∃ env', (s, env') ∈ scopes env c ∧ e.reads ⊆ env' ∧ Scoped ret env' r := by
  induction c generalizing env k with
  | nil => cases mem
  | block b rest ih ih' =>
    rcases List.mem_append.mp mem with mem | mem
    · obtain ⟨env', here, after⟩ := ih (h.1.append h.2) mem
      exact ⟨env', List.mem_append_left _ here, after⟩
    · obtain ⟨env', here, after⟩ := ih' h.2 mem
      exact ⟨env', List.mem_append_right _ here, after⟩
  | expr x e' rest ih => exact ih h.2.2 mem
  | coawait s' e' rest ih =>
    rcases List.mem_cons.mp mem with same | mem
    · cases same
      exact ⟨env, List.mem_cons_self, h⟩
    · obtain ⟨env', here, after⟩ := ih h.2 mem
      exact ⟨env', List.mem_cons_of_mem _ here, after⟩
  | if' g t e' rest iht ihe ih =>
    obtain ⟨⟨_, var⟩, ht, he, hrest⟩ := h
    simp only [awaitsIn, List.mem_append] at mem
    simp only [scopes, var, declare, Option.toList_none, List.nil_append, List.mem_append]
    rcases mem with mem | mem | mem
    · obtain ⟨env', here, after⟩ := iht (ht.append hrest) mem
      exact ⟨env', .inl here, after⟩
    · obtain ⟨env', here, after⟩ := ihe (he.append hrest) mem
      exact ⟨env', .inr (.inl here), after⟩
    · obtain ⟨env', here, after⟩ := ih hrest mem
      exact ⟨env', .inr (.inr here), after⟩
  | while' g b rest ihb ih =>
    simp only [scopes, h.1.2, declare, Option.toList_none, List.nil_append, List.mem_append]
    rcases List.mem_append.mp mem with mem | mem
    · obtain ⟨env', here, after⟩ := ihb (Scoped.append h.2.1 h) mem
      exact ⟨env', .inl here, after⟩
    · obtain ⟨env', here, after⟩ := ih h.2.2 mem
      exact ⟨env', .inr here, after⟩
  | _ => exact h.elim

theorem named_reads {e : Expr} (h : e.named env) : e.reads ⊆ env := by
  intro x hx
  have found := List.all_eq_true.mp h x (List.mem_append_left _ hx)
  have found : lookup env x.name = some x := by simpa using found
  simp only [lookup] at found
  split at found
  · cases found
  · exact List.mem_of_find?_eq_some found

theorem Resolves.scoped {r : Code Local} (compiled : Resolves env c r) (structured : c.Structured)
    (init : c.Initialized) (returns : ret ⊆ scopeAfter env c) : Scoped ret env c := by
  induction compiled generalizing ret with
  | nil => exact returns
  | block _ _ ih ih' =>
    exact ⟨ih structured.1 init.1 (List.nil_subset _), ih' structured.2 init.2 returns⟩
  | expr named _ ih => exact ⟨named_reads named, init.1, ih structured.2 init.2 returns⟩
  | coawait named _ ih => exact ⟨named_reads named, ih structured.2 init returns⟩
  | if' named _ _ _ iht ihe ih =>
    obtain ⟨⟨_, var⟩, _, _, ht, he, hrest⟩ := structured
    rw [var] at named iht ihe
    exact ⟨⟨named_reads named, var⟩, iht ht init.1 (List.nil_subset _),
      ihe he init.2.1 (List.nil_subset _), ih hrest init.2.2 returns⟩
  | while' named _ _ ihb ih =>
    obtain ⟨⟨_, var⟩, _, hb, hrest⟩ := structured
    rw [var] at named ihb
    exact ⟨⟨named_reads named, var⟩, ihb hb init.1 (List.nil_subset _), ih hrest init.2 returns⟩
  | _ => exact structured.elim

theorem mem_declare {x : Local} {y : Option Local} (mem : x ∈ declare y env) (ne : y ≠ some x) :
    x ∈ env := by
  cases y with
  | none => exact mem
  | some y =>
    rcases List.mem_cons.mp mem with rfl | mem
    · exact absurd rfl ne
    · exact mem

namespace Coroutine

variable {f : Coroutine} {p : Source}

/-- A live variable is in scope: on every way to where it is read it would get a value first. -/
theorem live_scoped {x : Local} (live : f.graph.Live x p) (h : Scoped f.ret.reads env p)
    (bare : p.Bare) (inside : ∀ a ∈ awaitsIn p nil, a ∈ awaitsIn f.body nil) : x ∈ env := by
  induction live generalizing env with
  | @read p r w q qs e hx =>
    cases p with
    | block => cases e; cases hx
    | expr y e' rest =>
      cases e
      refine mem_declare (h.1 hx) fun same => ?_
      exact (h.2.1 x same).2 hx
    | if' | while' => cases e; exact h.1.1 hx
    | coawait =>
      simp only [graph, node] at e
      split at e <;> cases e
    | nil => cases e
    | _ => exact h.elim
  | @pass p r w q qs q' e hx mem _ ih =>
    obtain ⟨bare', inside'⟩ := next_spec bare e q' mem
    have next {env' : List Local} (known : Scoped f.ret.reads env' q') : x ∈ env' :=
      ih known bare' fun a ha => inside a (inside' a ha)
    cases p with
    | block b rest =>
      cases e
      cases List.mem_singleton.mp mem
      exact next (h.1.append h.2)
    | expr y e' rest =>
      cases e
      cases List.mem_singleton.mp mem
      refine mem_declare (next h.2.2) fun same => ?_
      exact hx (h.2.1 x same).1
    | if' g t e' rest =>
      cases e
      obtain ⟨_, ht, he, hrest⟩ := h
      rcases List.mem_cons.mp mem with rfl | mem
      · exact next (ht.append hrest)
      · cases List.mem_singleton.mp mem
        exact next (he.append hrest)
    | while' g b rest =>
      cases e
      rcases List.mem_cons.mp mem with rfl | mem
      · exact next (Scoped.append h.2.1 h)
      · cases List.mem_singleton.mp mem
        exact next h.2.2
    | coawait =>
      simp only [graph, node] at e
      split at e <;> cases e
    | nil => cases e
    | _ => exact h.elim
  | @operand p s e hx =>
    obtain ⟨e', rest, rfl⟩ := node_await e
    have here : f.awaitAt s = _ := awaitAt_mem (inside _ List.mem_cons_self)
    simp only [graph, here, Option.map_some, Option.getD_some] at hx
    exact h.1 hx
  | used e hx => exact absurd hx (Set.notMem_empty x)
  | @resumed p s e hx _ ih =>
    obtain ⟨e', rest, rfl⟩ := node_await e
    have here : f.awaitAt s = _ := awaitAt_mem (inside _ List.mem_cons_self)
    have after : f.graph.after s = rest := by
      simp only [graph, here, Option.map_some, Option.getD_some, append_nil]
    rw [after] at ih
    exact ih h.2 bare fun a ha => inside a (List.mem_cons_of_mem _ ha)
  | @value p r e hx =>
    cases p with
    | nil => cases e; exact h hx
    | coawait =>
      simp only [graph, node] at e
      split at e
      · cases e
      · cases e; cases hx
    | block | expr | if' | while' => cases e
    | _ => exact h.elim

end Coroutine

/-- What is needed behind an await is saved at it. -/
theorem Coroutine.Plain.live_saved {f : Coroutine} (plain : f.Plain) (s : Fin f.count) :
    f.graph.liveAfter s ⊆ {x | x ∈ f.locals s} := by
  rintro x (used | ⟨_, live⟩)
  · exact absurd used (Set.notMem_empty x)
  · obtain ⟨e, r, h⟩ := exists_awaitAt s
    have mem := mem_awaitAt h
    obtain ⟨c, compiled⟩ := Option.isSome_iff_exists.mp f.named
    have known : Scoped f.ret.reads f.params (f.body.append nil) := by
      rw [append_nil]
      exact (resolves compiled).scoped plain.structured plain.initialized (named_reads f.returns)
    obtain ⟨env, here, _, after⟩ := known.after mem
    obtain ⟨next, bare, inside⟩ := after_inside h
    rw [next] at live
    exact plain.scope_saved here x (live_scoped live after bare inside)

/-- Whether and when a coroutine is migrated cannot be seen in what it does and returns. -/
theorem migration_transparent [∀ x, Inhabited (Val x)] {u : Ufser Val View} (ndebug : Bool)
    (rt : u.RoundTrips) {f : Coroutine} (plain : f.Plain) (few : f.count ≤ 65535)
    (sem : Sem Val Ev X V) (args junk : Store Val) {rs : List R} {ms : List (Move Val R)}
    (schedule : List.Forall₂ Continues rs ms) :
    ∃ c, f.rewritten = some c ∧ ∀ o,
      (program sem f.params f.ret c).Observes u ndebug args junk ms o ↔
        (program sem f.params f.ret c).Observes u ndebug args junk (rs.map .resume) o := by
  refine ⟨_, f.rewritten_braced plain.structured.braced.1 plain.visible, fun o => ?_⟩
  have stays : List.Forall₂ (@Continues Local Val R) rs (rs.map .resume) :=
    List.forall₂_map_right_iff.mpr (List.forall₂_same.mpr fun r _ => .resume r)
  have alike {ms : List (Move Val R)} (schedule : List.Forall₂ Continues rs ms) :
      (program sem f.params f.ret (f.output f.locals)).Observes u ndebug args junk ms o ↔
        (f.meaning sem).machine.Observes rs (.running f.body (overlay f.params args junk) []) o := by
    have migrating : (valetProgram (f.bodyOf f.locals) (f.meaning sem)).Observes u ndebug
          args junk ms o ↔
        (f.meaning sem).machine.Observes rs (.running f.body (overlay f.params args junk) []) o :=
      migrating_observes_iff (b := f.bodyOf f.locals) ndebug (f.meaning sem) rt
        (Nat.lt_succ_of_le few) (f.void f.locals) plain.live_saved args junk schedule o
    exact (f.output_same f.locals sem).observes_iff.trans migrating
  exact (alike schedule).trans (alike stays).symm

/-! A loop, with expressions on `int`s that log what they read and add to it. -/

def sums : Sem (fun _ : Local => UInt32) UInt32 UInt32 UInt32 where
  effects e _ l := e.reads.map l
  assign e _ l x := if x ∈ e.writes then (e.reads.map l).sum + 1 else l x
  test e _ l := (e.reads.map l).sum < 47
  operand e _ l := (e.reads.map l).sum
  value e _ l := (e.reads.map l).sum
  effects_reads agree := List.map_congr_left agree
  assign_reads agree x _ := by simp only [List.map_congr_left agree]; simp_all
  assign_frame out := if_neg out
  test_reads agree := by rw [List.map_congr_left agree]
  operand_reads agree := by rw [List.map_congr_left agree]
  value_reads agree := by rw [List.map_congr_left agree]

/-- `while (in < 47) { int x = in + 1; co_await remote_op(x); in = x + 1; } co_return in;` -/
def loop : Coroutine where
  returnType := "ser_ctx<int>"
  ctx := 0
  denotes := intCtx
  params := [⟨0, "in", .plain⟩]
  body :=
    while' ⟨⟨0, [⟨0, "in", .plain⟩], [], .nil⟩, none⟩
      (block (expr (some ⟨1, "x", .plain⟩) ⟨1, [⟨0, "in", .plain⟩], [⟨1, "x", .plain⟩], .nil⟩ <|
        coawait 0 ⟨2, [⟨1, "x", .plain⟩], [], .nil⟩ <|
        expr none ⟨3, [⟨1, "x", .plain⟩], [⟨0, "in", .plain⟩], .nil⟩ nil) nil) nil
  ret := ⟨4, [⟨0, "in", .plain⟩], [], .nil⟩
  formed := by simp [Formed, Single, head]
  whole := by simp [Whole, Forest.Awaitless]
  named := by decide
  returns := by decide
  numbered := by decide
  awaited := by decide
  conds := by decide
  operands := by decide

theorem loop_plain : loop.Plain where
  structured := by simp [loop, Structured, IsBlock, Forest.Varless]
  named := by decide
  distinct := by decide
  initialized := by simp [loop, Initialized]

theorem migration_transparent_loop : ∃ c, loop.rewritten = some c ∧
    (program sums loop.params loop.ret c).Observes wordUfser true (fun _ => 43) (fun _ => 0)
      [.migrate [(0 : UInt32)] (fun _ => 7), .resume 0]
      ([.effect 43, .effect 43, .await 44, .effect 44, .effect 45, .effect 45, .await 46,
        .effect 46, .effect 47], .finished 47) := by
  have schedule : List.Forall₂ (@Continues Local (fun _ => UInt32) UInt32) [0, 0]
      [.migrate [0] (fun _ => 7), .resume 0] := .cons (.migrate _ nofun) (.cons (.resume _) .nil)
  obtain ⟨c, rewrote, same⟩ := migration_transparent true wordUfser_roundTrips loop_plain
    (by decide) sums (fun _ => 43) (fun _ => 0) schedule
  refine ⟨c, rewrote, (same _).mpr ?_⟩
  have output : loop.rewritten =
      some (loop.output fun _ => [⟨0, "in", .plain⟩, ⟨1, "x", .plain⟩]) := by
    decide +kernel
  cases rewrote.symm.trans output
  exact ⟨30, rfl⟩

end Valor.Valet
