import Valor.Valet.Collect

/-! The scopes of the language, against which the stages are measured: what is declared where
a `co_await` of the function stands, and what Valet takes to be. -/
namespace Valor.Valet

/-- `env` has the declarations in scope, innermost first, with whether each is complete.
`upcoming` and `stale` are not in scope: the one has what a declaration around this point
declares later, the other what ended constructs leave to Valet's approximation, which are
their parameters and those variables of theirs that stand directly in an enclosing block. -/
structure Context where
  env : List (VarDecl × Bool)
  upcoming : List VarDecl
  stale : List VarDecl
  deriving DecidableEq

namespace Context

def vars (c : Context) : List VarDecl := c.env.map Prod.fst ++ (c.upcoming ++ c.stale)

/-- A name is in scope in its own initializer, but that of a range variable not in the
range. -/
def initializing (c : Context) (how : Declarator) (v : VarDecl) (later : List VarDecl) :
    Context :=
  if how = .range then { c with upcoming := v :: (later ++ c.upcoming) }
  else { c with env := (v, false) :: c.env, upcoming := later ++ c.upcoming }

def declared (c : Context) (v : VarDecl) : Context := { c with env := (v, true) :: c.env }

def ended (c : Context) (blk : Nat) (vs : List VarDecl) : Context :=
  { c with stale := vs.filter (fun v => v.parm || v.block = blk) ++ c.stale }

/-- What a name denotes. Nothing is found under the empty name of an unnamed parameter. -/
def lookup (c : Context) (name : String) : Option VarDecl :=
  if name = "" then none else (c.env.map Prod.fst).find? fun v => v.name = name

end Context

structure Site where
  aw : CoawaitExpr
  context : Context
  deriving DecidableEq

namespace Forest

/-- The declarators that follow in the same declaration. -/
def joinedVars : Forest → Nat → Nat → Nat → List VarDecl
  | var .joined name init rest, n, blk, prev =>
    Declarator.joined.decl n blk prev name :: rest.joinedVars (n + 1 + init.size) blk prev
  | _, _, _, _ => []

/-- The `co_await`s outside nested functions, with their contexts. -/
def sites : Forest → Nat → Nat → Nat → List Nat → Context → List Site
  | nil, _, _, _, _, _ => []
  | compound body rest, n, blk, _, blocks, c =>
    body.sites (n + 1) n (n + 1) (n :: blocks) c ++
      rest.sites (n + 1 + body.size) blk (n + 1 + body.size) blocks
        (c.ended blk (body.findVars (n + 1) n (n + 1)))
  | var how name init rest, n, blk, prev, blocks, c =>
    init.sites (n + 1) blk (n + 1) blocks (c.initializing how (how.decl n blk prev name)
        (rest.joinedVars (n + 1 + init.size) blk (how.start n prev))) ++
      rest.sites (n + 1 + init.size) blk (how.start n prev) blocks
        ((c.ended blk (init.findVars (n + 1) blk (n + 1))).declared (how.decl n blk prev name))
  | function params body rest, n, blk, _, blocks, c =>
    rest.sites (n + 1 + params.length + body.size) blk (n + 1 + params.length + body.size) blocks
      (c.ended blk (parmDecls (n + 1) n params ++
        body.findVars (n + 1 + params.length) n (n + 1 + params.length)))
  | coawait operand rest, n, blk, _, blocks, c =>
    ⟨⟨n, blocks, false⟩, c⟩ :: (operand.sites (n + 1) blk (n + 1) blocks c ++
      rest.sites (n + 1 + operand.size) blk (n + 1 + operand.size) blocks
        (c.ended blk (operand.findVars (n + 1) blk (n + 1))))
  | node children rest, n, blk, _, blocks, c =>
    children.sites (n + 1) blk (n + 1) blocks c ++
      rest.sites (n + 1 + children.size) blk (n + 1 + children.size) blocks
        (c.ended blk (children.findVars (n + 1) blk (n + 1)))

end Forest

def FunctionDecl.sites (f : FunctionDecl) : List Site :=
  f.body.sites f.start 0 f.start [0] ⟨f.parms.map fun v => (v, true), [], []⟩

/-- The stage is what it should be for a `co_await` in this context. -/
structure Stage.Exact (st : Stage) (c : Context) : Prop where
  nodup : st.vars.Nodup
  vars : ∀ v, v ∈ st.vars ↔ (v, true) ∈ c.env
  names : ∀ v ∈ st.vars, c.lookup v.name = some v

structure FunctionDecl.Exact (f : FunctionDecl) (ss : List Stage) : Prop where
  stages : (ss.map Stage.aw).Perm f.ownAwaits
  exact' : ∀ st ∈ ss, ∃ s ∈ f.sites, s.aw = st.aw ∧ st.Exact s.context

/-- Nothing but complete declarations is in sight, under different names. -/
structure Context.Plain (c : Context) : Prop where
  complete : ∀ p ∈ c.env, p.2 = true
  upcoming : c.upcoming = []
  stale : c.stale = []
  named : ∀ p ∈ c.env, p.1.name ≠ ""
  distinct : (c.env.map fun p => p.1.name).Nodup

structure FunctionDecl.Plain (f : FunctionDecl) : Prop where
  awaits : ∀ aw ∈ f.awaits, aw.nested = false
  contexts : ∀ s ∈ f.sites, s.context.Plain

theorem Context.ended_vars (c : Context) (blk : Nat) (vs : List VarDecl) :
    (c.ended blk vs).vars.Perm (vs.filter (fun v => v.parm || v.block = blk) ++ c.vars) :=
  ((List.perm_append_comm_assoc c.upcoming _ c.stale).append_left _).trans
    (List.perm_append_comm_assoc (c.env.map Prod.fst) _ _)

theorem Context.initializing_vars (c : Context) (how : Declarator) (v : VarDecl)
    (later : List VarDecl) : (c.initializing how v later).vars.Perm (v :: (later ++ c.vars)) := by
  have moved : (c.env.map Prod.fst ++ (later ++ (c.upcoming ++ c.stale))).Perm (later ++ c.vars) :=
    List.perm_append_comm_assoc _ _ _
  by_cases range : how = .range
  · simp only [initializing, if_pos range, vars, List.cons_append, List.append_assoc]
    exact List.perm_middle.trans (moved.cons v)
  · simp only [initializing, if_neg range, vars, List.map_cons, List.cons_append,
      List.append_assoc]
    exact moved.cons v

/-! ## What Valet accepts at a site -/

/-- All variables of a function, seen from the nodes of `F`: apart from its own there are
`others`, and those of them that Valet accepts here are the ones of the context. -/
structure Around (all : List VarDecl) (F : Forest) (n blk prev : Nat) (blocks : List Nat)
    (c : Context) (others : List VarDecl) : Prop where
  all : all.Perm (F.findVars n blk prev ++ others)
  outside : ∀ v ∈ others, (v.start < n ∨ n + F.size ≤ v.start) ∧
    (v.block < n ∨ n + F.size ≤ v.block)
  accepted : (others.filter (accepts n blocks)).Perm c.vars
  blk : blk ∈ blocks
  blocks : ∀ b ∈ blocks, b < n
  prev : prev ≤ n

variable {all others inner : List VarDecl} {F G : Forest} {n m blk blk' prev prev' : Nat}
  {blocks blocks' : List Nat} {c c' : Context}

/-- From some nodes to the nodes `G` among or below them; `inner` are the variables that are
not in sight any more. -/
theorem Around.enter (h : Around all F n blk prev blocks c others)
    (split : (F.findVars n blk prev).Perm (G.findVars m blk' prev' ++ inner))
    (low : n < m) (high : m + G.size ≤ n + F.size)
    (outside : ∀ v ∈ inner, (v.start < m ∨ m + G.size ≤ v.start) ∧
      (v.block < m ∨ m + G.size ≤ v.block))
    (same : ∀ b, b ≠ n → (b ∈ blocks' ↔ b ∈ blocks)) (below : ∀ b ∈ blocks', b < m)
    (here : blk' ∈ blocks') (le : prev' ≤ m)
    (accepted : (inner.filter (accepts m blocks') ++ c.vars).Perm c'.vars) :
    Around all G m blk' prev' blocks' c' (inner ++ others) where
  all := by
    rw [← List.append_assoc]
    exact h.all.trans (split.append_right others)
  outside := by
    intro v mem
    rcases List.mem_append.mp mem with mem | mem
    · exact outside v mem
    · have := h.outside v mem
      omega
  accepted := by
    have kept : others.filter (accepts m blocks') = others.filter (accepts n blocks) := by
      apply List.filter_congr
      intro v mem
      have out := h.outside v mem
      have start : v.start < m ↔ v.start < n := by omega
      have block := same v.block (by omega)
      simp only [accepts, start, block]
    rw [List.filter_append, kept]
    exact (h.accepted.append_left _).trans accepted
  blk := here
  blocks := below
  prev := le

theorem Around.below (h : Around all F n blk prev blocks c others) (le : n ≤ m) :
    ∀ b ∈ blocks, b < m :=
  fun b mem => Nat.lt_of_lt_of_le (h.blocks b mem) le

theorem accepts_later {vs : List VarDecl} (later : ∀ v ∈ vs, n ≤ v.start) :
    vs.filter (accepts n blocks) = [] := by
  apply List.filter_eq_nil_iff.mpr
  intro v mem
  have := later v mem
  simp [accepts]
  omega

theorem accepts_ended {vs : List VarDecl} (h : Around all F n blk prev blocks c others)
    (ended : ∀ v ∈ vs, v.start < m ∧ (v.block = blk ∨ n ≤ v.block)) :
    vs.filter (accepts m blocks) = vs.filter fun v => v.parm || v.block = blk := by
  apply List.filter_congr
  intro v mem
  obtain ⟨start, block⟩ := ended v mem
  have known : v.block ∈ blocks ↔ v.block = blk := by
    constructor
    · intro mem
      have := h.blocks _ mem
      omega
    · intro same
      exact same ▸ h.blk
  simp only [accepts, start, known]
  simp

theorem accepts_ahead (F : Forest) (le : m ≤ n) :
    (F.findVars n blk n).filter (accepts m blocks) = [] := by
  apply accepts_later
  intro v mem
  have := (F.findVars_placed n blk n (Nat.le_refl n) v mem).start
  omega

/-- Of what follows a declarator, only the joined ones begin before its initializer. -/
theorem accepts_joined (F : Forest) (here : blk ∈ blocks) (lt : prev < m) (le : m ≤ n) :
    (F.findVars n blk prev).filter (accepts m blocks) = F.joinedVars n blk prev := by
  induction F generalizing n with
  | nil => rfl
  | compound body rest => exact accepts_ahead (.compound body rest) le
  | var how name init rest _ rest_ih =>
    cases how with
    | first => exact accepts_ahead (.var .first name init rest) le
    | range => exact accepts_ahead (.var .range name init rest) le
    | joined =>
      have head : accepts m blocks (Declarator.joined.decl n blk prev name) = true := by
        simp [accepts, Declarator.decl, Declarator.start, lt, here]
      have middle : (init.findVars (n + 1) blk (n + 1)).filter (accepts m blocks) = [] :=
        accepts_ahead init (by omega)
      have tail := rest_ih (n := n + 1 + init.size) (by omega)
      simp only [Forest.findVars, Forest.joinedVars, List.filter_cons_of_pos head,
        List.filter_append, middle, List.nil_append, Declarator.start, tail]
  | function params body rest => exact accepts_ahead (.function params body rest) le
  | coawait operand rest => exact accepts_ahead (.coawait operand rest) le
  | node children rest => exact accepts_ahead (.node children rest) le

/-- Into the first part of some nodes, with what follows still ahead. -/
theorem Around.inside {H : Forest} (h : Around all F n blk prev blocks c others)
    (split : F.findVars n blk prev =
      G.findVars m blk' m ++ H.findVars (m + G.size) blk (m + G.size))
    (low : n < m) (high : m + G.size + H.size ≤ n + F.size)
    (same : ∀ b, b ≠ n → (b ∈ blocks' ↔ b ∈ blocks)) (below : ∀ b ∈ blocks', b < m)
    (here : blk' ∈ blocks') :
    Around all G m blk' m blocks' c (H.findVars (m + G.size) blk (m + G.size) ++ others) := by
  have blk_lt := h.blocks _ h.blk
  have ahead := H.findVars_placed (m + G.size) blk (m + G.size) (Nat.le_refl _)
  refine h.enter (split ▸ List.Perm.refl _) low (by omega) ?_ same below here (Nat.le_refl m) ?_
  · intro v mem
    obtain ⟨start, limit, block⟩ := ahead v mem
    omega
  · rw [accepts_later, List.nil_append]
    intro v mem
    have := (ahead v mem).start
    omega

theorem Forest.behind {k : Nat} (H : Forest) (low : n ≤ k) (high : k + H.size ≤ m)
    (block : blk' = blk ∨ n ≤ blk' ∧ blk' < m) :
    ∀ v ∈ H.findVars k blk' k, Forest.Placed n m blk n v :=
  fun v mem => (H.findVars_placed _ _ _ (Nat.le_refl k) v mem).widen low high (.inr low) block

theorem Around.past (h : Around all F n blk prev blocks c others)
    (split : F.findVars n blk prev = inner ++ G.findVars m blk m) (low : n < m)
    (high : m + G.size ≤ n + F.size) (behind : ∀ v ∈ inner, Forest.Placed n m blk n v) :
    Around all G m blk m blocks (c.ended blk inner) (inner ++ others) := by
  have blk_lt := h.blocks _ h.blk
  refine h.enter (split ▸ List.perm_append_comm) low high ?_ (fun _ _ => Iff.rfl)
    (h.below (by omega)) h.blk (Nat.le_refl m) ?_
  · intro v mem
    obtain ⟨_, start, block⟩ := behind v mem
    omega
  · rw [accepts_ended h]
    · exact (c.ended_vars blk inner).symm
    · intro v mem
      obtain ⟨_, start, block⟩ := behind v mem
      omega

theorem Around.self_accepted (h : Around all F n blk prev blocks c others) (how : Declarator)
    (name : String) (lt : n < m) : accepts m blocks (how.decl n blk prev name) = true := by
  have start_le := how.start_le h.prev
  have start_lt : how.start n prev < m := by omega
  simp [accepts, Declarator.decl, h.blk, start_lt]

theorem Around.initializing {how : Declarator} {name : String} {init rest : Forest}
    (h : Around all (.var how name init rest) n blk prev blocks c others) :
    Around all init (n + 1) blk (n + 1) blocks
      (c.initializing how (how.decl n blk prev name)
        (rest.joinedVars (n + 1 + init.size) blk (how.start n prev)))
      (how.decl n blk prev name ::
        rest.findVars (n + 1 + init.size) blk (how.start n prev) ++ others) := by
  have blk_lt := h.blocks _ h.blk
  have start_le := how.start_le h.prev
  refine h.enter List.perm_middle.symm (by omega) (by simp only [Forest.size]; omega) ?_
    (fun _ _ => Iff.rfl) (h.below (by omega)) h.blk (Nat.le_refl _) ?_
  · intro v mem
    rcases List.mem_cons.mp mem with rfl | mem
    · simp only [Declarator.decl]
      omega
    · obtain ⟨start, _, block⟩ := rest.findVars_placed _ _ _ (by omega) v mem
      omega
  · rw [List.filter_cons_of_pos (h.self_accepted how name (Nat.lt_succ_self n)),
      accepts_joined rest h.blk (by omega) (by omega)]
    exact (c.initializing_vars _ _ _).symm

theorem Around.declared {how : Declarator} {name : String} {init rest : Forest}
    (h : Around all (.var how name init rest) n blk prev blocks c others) :
    Around all rest (n + 1 + init.size) blk (how.start n prev) blocks
      ((c.ended blk (init.findVars (n + 1) blk (n + 1))).declared (how.decl n blk prev name))
      (how.decl n blk prev name :: init.findVars (n + 1) blk (n + 1) ++ others) := by
  have blk_lt := h.blocks _ h.blk
  have start_le := how.start_le h.prev
  refine h.enter ?_ (by omega) (by simp only [Forest.size]; omega) ?_
    (fun _ _ => Iff.rfl) (h.below (by omega)) h.blk (by omega) ?_
  · rw [Forest.findVars, ← List.cons_append]
    exact List.perm_append_comm
  · intro v mem
    rcases List.mem_cons.mp mem with rfl | mem
    · simp only [Declarator.decl]
      omega
    · obtain ⟨start, start_lt, block⟩ := init.findVars_placed _ _ _ (Nat.le_refl _) v mem
      omega
  · rw [List.filter_cons_of_pos (h.self_accepted how name (by omega)), accepts_ended h]
    · exact ((c.ended_vars blk _).cons _).symm
    · intro v mem
      obtain ⟨start, start_lt, block⟩ := init.findVars_placed _ _ _ (Nat.le_refl _) v mem
      omega

/-- At every site Valet accepts the variables of the context, in and out of scope. -/
theorem sites_spec (h : Around all F n blk prev blocks c others) :
    ∀ s ∈ F.sites n blk prev blocks c,
      (all.filter (accepts s.aw.at' s.aw.blocks)).Perm s.context.vars := by
  induction F generalizing n blk prev blocks c others with
  | nil => simp [Forest.sites]
  | compound body rest body_ih rest_ih =>
    intro s mem
    have blk_lt := h.blocks _ h.blk
    rcases List.mem_append.mp mem with mem | mem
    · refine body_ih (h.inside rfl (by omega) (by simp only [Forest.size]; omega) ?_ ?_ ?_) s mem
      · intro b ne
        simp [ne]
      · intro b mem
        rcases List.mem_cons.mp mem with rfl | mem
        · omega
        · exact h.below (by omega) b mem
      · simp
    · exact rest_ih (h.past rfl (by omega) (by simp only [Forest.size]; omega)
        (body.behind (by omega) (by omega) (by omega))) s mem
  | var how name init rest init_ih rest_ih =>
    intro s mem
    rcases List.mem_append.mp mem with mem | mem
    · exact init_ih h.initializing s mem
    · exact rest_ih h.declared s mem
  | function params body rest body_ih rest_ih =>
    intro s mem
    have blk_lt := h.blocks _ h.blk
    refine rest_ih (h.past (List.append_assoc _ _ _).symm (by omega)
      (by simp only [Forest.size]; omega) ?_) s mem
    intro v mem
    rcases List.mem_append.mp mem with mem | mem
    · have parm := parmDecls_spec _ _ _ v mem
      constructor <;> omega
    · exact body.behind (by omega) (by omega) (by omega) v mem
  | coawait operand rest operand_ih rest_ih =>
    intro s mem
    have blk_lt := h.blocks _ h.blk
    rcases List.mem_cons.mp mem with rfl | mem
    · refine (h.all.filter _).trans ?_
      have ahead : ((Forest.coawait operand rest).findVars n blk prev).filter
          (accepts n blocks) = [] := accepts_ahead (.coawait operand rest) (Nat.le_refl n)
      rw [List.filter_append, ahead]
      exact h.accepted
    rcases List.mem_append.mp mem with mem | mem
    · exact operand_ih (h.inside rfl (by omega) (by simp only [Forest.size]; omega)
        (fun _ _ => Iff.rfl) (h.below (by omega)) h.blk) s mem
    · exact rest_ih (h.past rfl (by omega) (by simp only [Forest.size]; omega)
        (operand.behind (by omega) (by omega) (by omega))) s mem
  | node children rest children_ih rest_ih =>
    intro s mem
    have blk_lt := h.blocks _ h.blk
    rcases List.mem_append.mp mem with mem | mem
    · exact children_ih (h.inside rfl (by omega) (by simp only [Forest.size]; omega)
        (fun _ _ => Iff.rfl) (h.below (by omega)) h.blk) s mem
    · exact rest_ih (h.past rfl (by omega) (by simp only [Forest.size]; omega)
        (children.behind (by omega) (by omega) (by omega))) s mem

/-! ## Exactness -/

theorem Forest.findAwaits_nested (F : Forest) (n : Nat) (blocks : List Nat) :
    (F.findAwaits n blocks true).filter (fun aw => !aw.nested) = [] := by
  induction F generalizing n blocks with
  | nil => rfl
  | compound _ _ ih ih' | var _ _ _ _ ih ih' | function _ _ _ ih ih' | node _ _ ih ih' =>
    simp only [findAwaits, List.filter_append, ih, ih', List.append_nil]
  | coawait _ _ ih ih' =>
    simp only [findAwaits, List.filter_cons, List.filter_append, ih, ih']
    rfl

theorem Forest.sites_aw (F : Forest) (n blk prev : Nat) (blocks : List Nat) (c : Context) :
    (F.sites n blk prev blocks c).map Site.aw =
      (F.findAwaits n blocks false).filter fun aw => !aw.nested := by
  induction F generalizing n blk prev blocks c with
  | nil => rfl
  | compound _ _ ih ih' | var _ _ _ _ ih ih' | node _ _ ih ih' =>
    simp only [sites, findAwaits, List.map_append, List.filter_append, ih, ih']
  | function _ body _ _ ih =>
    simp only [sites, findAwaits, List.filter_append, findAwaits_nested, List.nil_append, ih]
  | coawait _ _ ih ih' =>
    simp only [sites, findAwaits, List.map_append, List.map_cons, List.filter_append,
      List.filter_cons, ih, ih']
    rfl

namespace FunctionDecl

theorem sites_aw (f : FunctionDecl) : f.sites.map Site.aw = f.ownAwaits :=
  f.body.sites_aw f.start 0 f.start [0] _

theorem around (f : FunctionDecl) : Around f.vars f.body f.start 0 f.start [0]
    ⟨f.parms.map fun v => (v, true), [], []⟩ f.parms where
  all := List.perm_append_comm
  outside := by
    intro v mem
    have parm := parmDecls_spec 1 0 f.params v mem
    simp only [start]
    omega
  accepted := by
    have all : f.parms.filter (accepts f.start [0]) = f.parms := by
      apply List.filter_eq_self.mpr
      intro v mem
      have parm := parmDecls_spec 1 0 f.params v mem
      simp [accepts, start, parm]
    simp [all, Context.vars, Function.comp_def]
  blk := by simp
  blocks := by
    intro b mem
    cases List.mem_singleton.mp mem
    simp only [start]
    omega
  prev := Nat.le_refl _

theorem accepted_at (f : FunctionDecl) : ∀ s ∈ f.sites,
    (f.vars.filter (accepts s.aw.at' s.aw.blocks)).Perm s.context.vars :=
  sites_spec f.around

end FunctionDecl

theorem Context.lookup_some {c : Context} {name : String} {v : VarDecl}
    (h : c.lookup name = some v) : name ≠ "" ∧ v ∈ c.env.map Prod.fst ∧ v.name = name := by
  simp only [lookup] at h
  split at h
  · contradiction
  · exact ⟨‹_›, List.mem_of_find?_eq_some h, by simpa using List.find?_some h⟩

theorem Context.Plain.lookup {c : Context} (plain : c.Plain) {p : VarDecl × Bool}
    (mem : p ∈ c.env) : c.lookup p.1.name = some p.1 := by
  simp only [Context.lookup, if_neg (plain.named p mem)]
  cases found : (c.env.map Prod.fst).find? fun v => v.name = p.1.name with
  | none =>
    have none := List.find?_eq_none.mp found p.1 (List.mem_map_of_mem mem)
    simp at none
  | some v =>
    have name : v.name = p.1.name := by simpa using List.find?_some found
    obtain ⟨q, here, rfl⟩ := List.mem_map.mp (List.mem_of_find?_eq_some found)
    rw [List.inj_on_of_nodup_map plain.distinct here mem name]

/-- A stage with what Valet accepts is the right one just when the context is plain. -/
theorem Stage.exact_iff {st : Stage} (vars : st.vars.Perm c.vars) (nodup : st.vars.Nodup) :
    st.Exact c ↔ c.Plain := by
  have split := vars.nodup_iff.mp nodup
  obtain ⟨distinct, _, apart⟩ := List.nodup_append.mp split
  have known : ∀ p ∈ c.env, p.1 ∈ st.vars := by
    intro p mem
    exact vars.mem_iff.mpr (List.mem_append_left _ (List.mem_map_of_mem mem))
  constructor
  · intro exact'
    have inScope : ∀ v ∈ st.vars, v ∈ c.env.map Prod.fst := fun v mem =>
      List.mem_map.mpr ⟨_, (exact'.vars v).mp mem, rfl⟩
    have nothing : c.upcoming ++ c.stale = [] := by
      apply List.eq_nil_iff_forall_not_mem.mpr
      intro v mem
      exact apart v (inScope v (vars.mem_iff.mpr (List.mem_append_right _ mem))) v mem rfl
    obtain ⟨upcoming, stale⟩ := List.append_eq_nil_iff.mp nothing
    refine ⟨?_, upcoming, stale, ?_, ?_⟩
    · intro p mem
      have complete := (exact'.vars p.1).mp (known p mem)
      rw [List.inj_on_of_nodup_map distinct mem complete rfl]
    · intro p mem
      exact (Context.lookup_some (exact'.names p.1 (known p mem))).1
    · have names : c.env.map (fun p => p.1.name) = (c.env.map Prod.fst).map VarDecl.name := by
        simp
      rw [names]
      apply List.Nodup.map_on _ distinct
      intro u hu v hv name
      obtain ⟨p, hp, rfl⟩ := List.mem_map.mp hu
      obtain ⟨q, hq, rfl⟩ := List.mem_map.mp hv
      have left := exact'.names p.1 (known p hp)
      rw [name, exact'.names q.1 (known q hq)] at left
      exact (Option.some.inj left).symm
  · intro plain
    have all : ∀ v, v ∈ st.vars ↔ (v, true) ∈ c.env := by
      intro v
      rw [vars.mem_iff]
      simp only [Context.vars, plain.upcoming, plain.stale, List.append_nil, List.mem_map]
      constructor
      · rintro ⟨p, mem, rfl⟩
        rw [← plain.complete p mem]
        exact mem
      · intro mem
        exact ⟨_, mem, rfl⟩
    exact ⟨nodup, all, fun v mem => plain.lookup ((all v).mp mem)⟩

/-- The function of the test `local_vars`. -/
def localVars : FunctionDecl where
  params := ["in"]
  body := .node .nil <| .compound (.var .first "x" .nil <| .node .nil .nil) <|
    .coawait .nil <| .var .first "j" .nil <| .node .nil <| .coawait .nil <| .node .nil .nil

example : ((collect (TranslationUnit.matches' [localVars])).get 0).map
    (fun st => st.vars.map VarDecl.name) = [["in"], ["in", "j"]] := by decide

/-- `[](int q) {}(1); co_await remote_op();` -/
def lambdaBefore : FunctionDecl where
  params := []
  body := .node (.function ["q"] .nil .nil) <| .coawait .nil .nil

end Valor.Valet
