import Mathlib.Data.List.Induction
import Mathlib.Data.List.Sigma
import Valor.Valet.Ast

/-! The callbacks of the matcher, which gather the stages of each coroutine function. -/
namespace Valor.Valet

structure Stage where
  aw : CoawaitExpr
  scope : List Nat
  vars : List VarDecl
  deriving DecidableEq

/-- The map from functions, by number, to their stages. -/
abbrev Stages := List (Nat × List Stage)

structure MatchResult where
  f : Nat
  aw : CoawaitExpr
  var : Option VarDecl

namespace Stages

def get : Stages → Nat → List Stage
  | [], _ => []
  | (g, ss) :: stages, f => if g = f then ss else get stages f

/-- An access by `operator[]`, which makes an empty entry for a new function. -/
def modify (f : Nat) (change : List Stage → List Stage) : Stages → Stages
  | [] => [(f, change [])]
  | (g, ss) :: stages =>
    if g = f then (g, change ss) :: stages else (g, ss) :: modify f change stages

@[simp]
theorem get_modify_self (f : Nat) (change : List Stage → List Stage) (stages : Stages) :
    (stages.modify f change).get f = change (stages.get f) := by
  induction stages with
  | nil => simp [modify, get]
  | cons entry stages ih =>
    by_cases h : entry.1 = f
    · simp [modify, get, h]
    · simp [modify, get, h, ih]

theorem get_modify_other {f g : Nat} (ne : g ≠ f) (change : List Stage → List Stage)
    (stages : Stages) : (stages.modify g change).get f = stages.get f := by
  induction stages with
  | nil => simp [modify, get, ne]
  | cons entry stages ih =>
    by_cases h : entry.1 = g
    · simp [modify, get, h, ne]
    · simp [modify, get, h, ih]

theorem mem_modify {f : Nat} {change : List Stage → List Stage} {stages : Stages}
    {entry : Nat × List Stage} (mem : entry ∈ stages.modify f change) :
    entry ∈ stages ∨ ∃ ss, entry = (f, change ss) ∧ ((f, ss) ∈ stages ∨ ss = []) := by
  induction stages with
  | nil =>
    cases List.mem_singleton.mp mem
    exact .inr ⟨[], rfl, .inr rfl⟩
  | cons first stages ih =>
    simp only [modify] at mem
    split at mem
    · rename_i same
      rcases List.mem_cons.mp mem with rfl | mem
      · exact .inr ⟨first.2, by rw [same], .inl (same ▸ List.mem_cons_self)⟩
      · exact .inl (List.mem_cons_of_mem _ mem)
    · rcases List.mem_cons.mp mem with rfl | mem
      · exact .inl List.mem_cons_self
      · rcases ih mem with old | ⟨ss, rfl, old⟩
        · exact .inl (List.mem_cons_of_mem _ old)
        · exact .inr ⟨ss, rfl, old.imp_left (List.mem_cons_of_mem _)⟩

theorem get_mem {f : Nat} {stages : Stages} (some' : stages.get f ≠ []) :
    (f, stages.get f) ∈ stages := by
  induction stages with
  | nil => contradiction
  | cons first stages ih =>
    simp only [get] at some' ⊢
    split at some'
    · rename_i same
      rw [if_pos same, ← same]
      exact List.mem_cons_self
    · rename_i other
      rw [if_neg other]
      exact List.mem_cons_of_mem _ (ih some')

theorem modify_ne_nil (f : Nat) (change : List Stage → List Stage) (stages : Stages) :
    stages.modify f change ≠ [] := by
  cases stages with
  | nil => simp [modify]
  | cons first stages =>
    simp only [modify]
    split <;> simp

end Stages

def ensureStageFor (ss : List Stage) (aw : CoawaitExpr) : List Stage :=
  if ss.any fun st => st.aw = aw then ss else ss ++ [⟨aw, aw.blocks, []⟩]

/-- The condition of `run` on a variable, for a `co_await` that begins at `n`. -/
def accepts (n : Nat) (scope : List Nat) (v : VarDecl) : Bool :=
  v.start < n && (v.parm || v.block ∈ scope)

def Stage.add (st : Stage) : Option VarDecl → Stage
  | some v => if accepts st.aw.at' st.scope v then { st with vars := st.vars ++ [v] } else st
  | none => st

def run (stages : Stages) (res : MatchResult) : Stages :=
  stages.modify res.f fun ss =>
    (ensureStageFor ss res.aw).map fun st => if st.aw = res.aw then st.add res.var else st

/-- All pairs below a function; without any variable the optional binding stays empty. -/
def FunctionDecl.matches' (i : Nat) (f : FunctionDecl) : List MatchResult :=
  f.awaits.flatMap fun aw =>
    if f.vars = [] then [⟨i, aw, none⟩] else f.vars.map fun v => ⟨i, aw, some v⟩

/-- The functions of a file that are matched. -/
abbrev TranslationUnit := List FunctionDecl

def TranslationUnit.matches' (u : TranslationUnit) : List MatchResult :=
  u.zipIdx.flatMap fun p => p.1.matches' p.2

/-- The stages after the callbacks, called in the order of `reports`. -/
def collect (reports : List MatchResult) : Stages := reports.foldl run []

/-- The variables reported with `aw` below `f`. -/
def reported (f : Nat) (aw : CoawaitExpr) (reports : List MatchResult) : List VarDecl :=
  reports.filterMap fun r => if r.f = f ∧ r.aw = aw then r.var else none

/-- What the stages of `f` hold after some reports. -/
structure Collected (f : Nat) (reports : List MatchResult) (ss : List Stage) : Prop where
  once : (ss.map Stage.aw).Nodup
  awaits : ∀ aw, aw ∈ ss.map Stage.aw ↔ ∃ r ∈ reports, r.f = f ∧ r.aw = aw
  scope : ∀ st ∈ ss, st.scope = st.aw.blocks
  vars : ∀ st ∈ ss, st.vars = (reported f st.aw reports).filter (accepts st.aw.at' st.aw.blocks)

variable {f : Nat} {reports : List MatchResult} {ss : List Stage} {res : MatchResult}

theorem Collected.nil : Collected f [] [] where
  once := List.nodup_nil
  awaits := by simp
  scope := by simp
  vars := by simp

theorem reported_append (f : Nat) (aw : CoawaitExpr) (reports reports' : List MatchResult) :
    reported f aw (reports ++ reports') = reported f aw reports ++ reported f aw reports' :=
  List.filterMap_append

theorem reported_other {aw : CoawaitExpr} (other : ¬ (res.f = f ∧ res.aw = aw)) :
    reported f aw [res] = [] := by
  simp [reported, other]

theorem Collected.other (h : Collected f reports ss) (other : res.f ≠ f) :
    Collected f (reports ++ [res]) ss where
  once := h.once
  awaits := by
    intro aw
    rw [h.awaits aw]
    simp [or_and_right, exists_or, other]
  scope := h.scope
  vars := by
    intro st mem
    rw [reported_append, reported_other fun same => other same.1, List.append_nil]
    exact h.vars st mem

/-- `ensure_stage_for` alone: the new stage has no variables yet. -/
theorem ensure_stage_for_spec (h : Collected f reports ss) (aw : CoawaitExpr) :
    ((ensureStageFor ss aw).map Stage.aw).Nodup ∧
    (∀ aw', aw' ∈ (ensureStageFor ss aw).map Stage.aw ↔ aw' ∈ ss.map Stage.aw ∨ aw' = aw) ∧
    ∀ st ∈ ensureStageFor ss aw, st.scope = st.aw.blocks ∧
      st.vars = (reported f st.aw reports).filter (accepts st.aw.at' st.aw.blocks) := by
  by_cases known : ∃ st ∈ ss, st.aw = aw
  · have same : ensureStageFor ss aw = ss := by simp [ensureStageFor, known]
    rw [same]
    refine ⟨h.once, fun aw' => ?_, fun st mem => ⟨h.scope st mem, h.vars st mem⟩⟩
    obtain ⟨st, mem, rfl⟩ := known
    constructor
    · exact Or.inl
    · rintro (old | rfl)
      · exact old
      · exact List.mem_map_of_mem mem
  · have added : ensureStageFor ss aw = ss ++ [⟨aw, aw.blocks, []⟩] := by
      simp [ensureStageFor, known]
    have fresh : aw ∉ ss.map Stage.aw := by simpa using known
    have unseen : reported f aw reports = [] := by
      apply List.filterMap_eq_nil_iff.mpr
      intro r mem
      have : ¬ (r.f = f ∧ r.aw = aw) := fun same => fresh ((h.awaits aw).mpr ⟨r, mem, same⟩)
      simp [this]
    rw [added]
    refine ⟨?_, fun aw' => by simp, fun st mem => ?_⟩
    · rw [List.map_append, List.nodup_append]
      refine ⟨h.once, List.nodup_singleton _, ?_⟩
      intro a mem b here same
      simp only [List.map_cons, List.map_nil, List.mem_singleton] at here
      subst same here
      exact fresh mem
    · rcases List.mem_append.mp mem with old | new
      · exact ⟨h.scope st old, h.vars st old⟩
      · cases List.mem_singleton.mp new
        exact ⟨rfl, by simp [unseen]⟩

@[simp]
theorem Stage.add_aw (st : Stage) (var : Option VarDecl) : (st.add var).aw = st.aw := by
  cases var with
  | none => rfl
  | some v => simp only [add]; split <;> rfl

@[simp]
theorem Stage.add_scope (st : Stage) (var : Option VarDecl) : (st.add var).scope = st.scope := by
  cases var with
  | none => rfl
  | some v => simp only [add]; split <;> rfl

theorem Stage.add_vars (st : Stage) (var : Option VarDecl) :
    (st.add var).vars = st.vars ++ var.toList.filter (accepts st.aw.at' st.scope) := by
  cases var with
  | none => simp [add]
  | some v => by_cases h : accepts st.aw.at' st.scope v <;> simp [add, h]

theorem Collected.run (h : Collected f reports ss) (here : res.f = f) :
    Collected f (reports ++ [res]) ((ensureStageFor ss res.aw).map fun st =>
      if st.aw = res.aw then st.add res.var else st) := by
  obtain ⟨once, awaits, kept⟩ := ensure_stage_for_spec h res.aw
  have names : ((ensureStageFor ss res.aw).map fun st =>
      if st.aw = res.aw then st.add res.var else st).map Stage.aw =
      (ensureStageFor ss res.aw).map Stage.aw := by
    rw [List.map_map]
    apply List.map_congr_left
    intro st _
    by_cases same : st.aw = res.aw <;> simp [same]
  constructor
  · rw [names]
    exact once
  · intro aw
    rw [names, awaits, h.awaits]
    simp [or_and_right, exists_or, here, eq_comm]
  · intro st mem
    obtain ⟨st, old, rfl⟩ := List.mem_map.mp mem
    have scope := (kept st old).1
    by_cases same : st.aw = res.aw <;> simp [same, scope]
  · intro st mem
    obtain ⟨st, old, rfl⟩ := List.mem_map.mp mem
    obtain ⟨scope, vars⟩ := kept st old
    rw [reported_append, List.filter_append]
    by_cases same : st.aw = res.aw
    · have now : reported f st.aw [res] = res.var.toList := by
        cases hv : res.var <;> simp [reported, here, same, hv]
      rw [if_pos same, Stage.add_vars, Stage.add_aw, now, scope, vars]
    · rw [if_neg same, reported_other fun both => same both.2.symm, vars]
      simp

theorem collect_run (f : Nat) (reports : List MatchResult) :
    Collected f reports ((collect reports).get f) := by
  induction reports using List.reverseRecOn with
  | nil => exact Collected.nil
  | append_singleton reports res ih =>
    simp only [collect, List.foldl_append, List.foldl_cons, List.foldl_nil]
    by_cases here : res.f = f
    · rw [Valet.run, here, Stages.get_modify_self]
      exact ih.run here
    · rw [Valet.run, Stages.get_modify_other here]
      exact ih.other here

/-- Entries and stages come from reports only. -/
theorem collect_entries (reports : List MatchResult) : ∀ entry ∈ collect reports,
    (∃ r ∈ reports, r.f = entry.1) ∧
      ∀ st ∈ entry.2, ∃ r ∈ reports, r.f = entry.1 ∧ r.aw = st.aw := by
  induction reports using List.reverseRecOn with
  | nil => simp [collect]
  | append_singleton reports res ih =>
    intro entry mem
    simp only [collect, List.foldl_append, List.foldl_cons, List.foldl_nil] at mem
    rcases Stages.mem_modify mem with old | ⟨ss, rfl, old⟩
    · obtain ⟨⟨r, here, same⟩, stages⟩ := ih entry old
      refine ⟨⟨r, List.mem_append_left _ here, same⟩, fun st mem => ?_⟩
      obtain ⟨r, here, same⟩ := stages st mem
      exact ⟨r, List.mem_append_left _ here, same⟩
    · refine ⟨⟨res, by simp, rfl⟩, fun st mem => ?_⟩
      obtain ⟨st', mem', rfl⟩ := List.mem_map.mp mem
      have name : (if st'.aw = res.aw then st'.add res.var else st').aw = st'.aw := by
        split <;> simp
      rw [name]
      by_cases same : st'.aw = res.aw
      · exact ⟨res, by simp, rfl, same.symm⟩
      · have known : st' ∈ ss := by
          simp only [ensureStageFor] at mem'
          split at mem'
          · exact mem'
          · rcases List.mem_append.mp mem' with mem' | mem'
            · exact mem'
            · exact absurd (congrArg Stage.aw (List.mem_singleton.mp mem')) same
        rcases old with old | rfl
        · obtain ⟨r, here, from'⟩ := (ih _ old).2 st' known
          exact ⟨r, List.mem_append_left _ here, from'⟩
        · cases known

theorem collect_ne_nil {reports : List MatchResult} (some' : reports ≠ []) :
    collect reports ≠ [] := by
  obtain ⟨before, last, rfl⟩ := (List.eq_nil_or_concat reports).resolve_left some'
  rw [List.concat_eq_append, collect, List.foldl_append]
  exact Stages.modify_ne_nil _ _ _

/-! ## What is reported when all pairs are -/

theorem flatMap_single {A B : Type*} {l : List A} {g : A → List B} {a : A} (nodup : l.Nodup)
    (mem : a ∈ l) (only : ∀ b ∈ l, b ≠ a → g b = []) : l.flatMap g = g a := by
  obtain ⟨before, after, rfl⟩ := List.append_of_mem mem
  have parts := List.nodup_middle.mp nodup
  have absent : ∀ b ∈ before ++ after, g b = [] := by
    intro b mem'
    apply only b
    · simp only [List.mem_append, List.mem_cons] at mem' ⊢
      tauto
    · rintro rfl
      exact (List.nodup_cons.mp parts).1 mem'
  have left : before.flatMap g = [] :=
    List.flatMap_eq_nil_iff.mpr fun b hb => absent b (List.mem_append_left _ hb)
  have right : after.flatMap g = [] :=
    List.flatMap_eq_nil_iff.mpr fun b hb => absent b (List.mem_append_right _ hb)
  rw [List.flatMap_append, List.flatMap_cons, left, right, List.nil_append, List.append_nil]

theorem find_key {A : Type} {l : List (Nat × A)} {p : Nat × A} (nodup : (l.map Prod.fst).Nodup)
    (mem : p ∈ l) : l.find? (fun q => q.1 = p.1) = some p := by
  cases found : l.find? fun q => q.1 = p.1 with
  | none => simpa using List.find?_eq_none.mp found p mem
  | some q =>
    have key : q.1 = p.1 := by simpa using List.find?_some found
    rw [List.inj_on_of_nodup_map nodup (List.mem_of_find?_eq_some found) mem key]

theorem reported_matches (i j : Nat) (f : FunctionDecl) (aw : CoawaitExpr) :
    reported i aw (f.matches' j) = if j = i ∧ aw ∈ f.awaits then f.vars else [] := by
  rw [reported, FunctionDecl.matches', List.filterMap_flatMap]
  by_cases here : j = i ∧ aw ∈ f.awaits
  · obtain ⟨rfl, mem⟩ := here
    rw [if_pos ⟨rfl, mem⟩, flatMap_single f.awaits_nodup mem]
    · by_cases none : f.vars = []
      · simp [none]
      · simp [none, List.filterMap_map]
    · intro aw' _ ne
      by_cases none : f.vars = []
      · simp [none]
      · simp [none, ne]
  · rw [if_neg here]
    apply List.flatMap_eq_nil_iff.mpr
    intro aw' mem
    have other : ¬ (j = i ∧ aw' = aw) := fun same => here ⟨same.1, same.2 ▸ mem⟩
    by_cases none : f.vars = []
    · simp [none]
    · simp [none, other]

theorem reported_all {u : TranslationUnit} {i : Nat} {f : FunctionDecl} (h : u[i]? = some f)
    {aw : CoawaitExpr} (mem : aw ∈ f.awaits) : reported i aw u.matches' = f.vars := by
  have unit : reported i aw u.matches' =
      u.zipIdx.flatMap fun p => reported i aw (p.1.matches' p.2) :=
    List.filterMap_flatMap
  have here : (f, i) ∈ u.zipIdx := List.mk_mem_zipIdx_iff_getElem?.mpr h
  rw [unit, flatMap_single (List.Nodup.of_map Prod.snd (List.nodup_zipIdx_map_snd u)) here]
  · rw [reported_matches, if_pos ⟨rfl, mem⟩]
  · intro p mem' ne
    rw [reported_matches, if_neg]
    rintro ⟨same, _⟩
    have other := List.mem_zipIdx_iff_getElem?.mp mem'
    rw [same, h] at other
    exact ne (Prod.ext (Option.some.inj other).symm same)

theorem mem_matches {u : TranslationUnit} {r : MatchResult} (mem : r ∈ u.matches') :
    ∃ f, u[r.f]? = some f ∧ r.aw ∈ f.awaits := by
  obtain ⟨⟨f, i⟩, here, pair⟩ := List.mem_flatMap.mp mem
  obtain ⟨aw, own, this⟩ := List.mem_flatMap.mp pair
  have same : r.f = i ∧ r.aw = aw := by
    by_cases none : f.vars = []
    · simp only [none, if_true, List.mem_singleton] at this
      simp [this]
    · simp only [none, if_false, List.mem_map] at this
      obtain ⟨v, _, rfl⟩ := this
      exact ⟨rfl, rfl⟩
  rw [same.1, same.2]
  exact ⟨f, List.mem_zipIdx_iff_getElem?.mp here, own⟩

theorem awaits_reported {u : TranslationUnit} {i : Nat} {f : FunctionDecl} (h : u[i]? = some f)
    (aw : CoawaitExpr) : (∃ r ∈ u.matches', r.f = i ∧ r.aw = aw) ↔ aw ∈ f.awaits := by
  constructor
  · rintro ⟨r, mem, rfl, rfl⟩
    obtain ⟨g, found, own⟩ := mem_matches mem
    rw [Option.some.inj (h.symm.trans found)]
    exact own
  · intro mem
    have here : (f, i) ∈ u.zipIdx := List.mk_mem_zipIdx_iff_getElem?.mpr h
    by_cases none : f.vars = []
    · exact ⟨⟨i, aw, .none⟩, List.mem_flatMap.mpr ⟨_, here,
        List.mem_flatMap.mpr ⟨aw, mem, by simp [none]⟩⟩, rfl, rfl⟩
    · obtain ⟨v, rest, eq⟩ := List.exists_cons_of_ne_nil none
      exact ⟨⟨i, aw, some v⟩, List.mem_flatMap.mpr ⟨_, here,
        List.mem_flatMap.mpr ⟨aw, mem, by simp [eq]⟩⟩, rfl, rfl⟩

/-- Whatever the order of the callbacks: one stage for each `co_await` below the function,
with the variables that `run` accepts, each once. -/
theorem collect_spec {u : TranslationUnit} {i : Nat} {f : FunctionDecl} (h : u[i]? = some f)
    {reports : List MatchResult} (all : reports.Perm u.matches') :
    (((collect reports).get i).map Stage.aw).Perm f.awaits ∧
    ∀ st ∈ (collect reports).get i, st.scope = st.aw.blocks ∧
      st.vars.Perm (f.vars.filter (accepts st.aw.at' st.aw.blocks)) := by
  have done := collect_run i reports
  have same : ∀ aw, aw ∈ ((collect reports).get i).map Stage.aw ↔ aw ∈ f.awaits := by
    intro aw
    rw [done.awaits, ← awaits_reported h]
    simp only [all.mem_iff]
  constructor
  · exact (List.perm_ext_iff_of_nodup done.once f.awaits_nodup).mpr same
  · intro st mem
    have own : st.aw ∈ f.awaits := (same st.aw).mp (List.mem_map_of_mem mem)
    refine ⟨done.scope st mem, ?_⟩
    rw [done.vars st mem, ← reported_all h own]
    exact (all.filterMap _).filter _

/-! ## The order of the stages -/

theorem run_awaits (stages : Stages) (res : MatchResult) :
    ((run stages res).get res.f).map Stage.aw =
      if res.aw ∈ (stages.get res.f).map Stage.aw then (stages.get res.f).map Stage.aw
      else (stages.get res.f).map Stage.aw ++ [res.aw] := by
  have names (ss : List Stage) : (ss.map fun st =>
      if st.aw = res.aw then st.add res.var else st).map Stage.aw = ss.map Stage.aw := by
    rw [List.map_map]
    apply List.map_congr_left
    intro st _
    by_cases same : st.aw = res.aw <;> simp [same]
  rw [run, Stages.get_modify_self, names]
  by_cases known : ∃ st ∈ stages.get res.f, st.aw = res.aw <;> simp [ensureStageFor, known]

/-- All reports of one `co_await` make one stage. -/
theorem group_awaits {stages : Stages} {i : Nat} {aw : CoawaitExpr}
    (fresh : aw ∉ (stages.get i).map Stage.aw) (group : List MatchResult)
    (some' : group ≠ []) (same : ∀ r ∈ group, r.f = i ∧ r.aw = aw) :
    ((group.foldl run stages).get i).map Stage.aw = (stages.get i).map Stage.aw ++ [aw] := by
  induction group using List.reverseRecOn with
  | nil => contradiction
  | append_singleton group r ih =>
    obtain ⟨rfl, rfl⟩ := same r (by simp)
    rw [List.foldl_append, List.foldl_cons, List.foldl_nil, run_awaits]
    cases group with
    | nil => exact if_neg fresh
    | cons r' group =>
      rw [ih (List.cons_ne_nil _ _) fun q mem => same q (List.mem_append_left _ mem)]
      simp

/-- The stages are in the order in which their `co_await`s are reported. -/
theorem collect_awaits (i : Nat) (f : FunctionDecl) :
    ((collect (f.matches' i)).get i).map Stage.aw = f.awaits := by
  have groups (aws : List CoawaitExpr) (stages : Stages)
      (fresh : ((stages.get i).map Stage.aw ++ aws).Nodup) :
      (((aws.flatMap fun aw => if f.vars = [] then [⟨i, aw, none⟩]
        else f.vars.map fun v => (⟨i, aw, some v⟩ : MatchResult)).foldl run stages).get i).map
          Stage.aw = (stages.get i).map Stage.aw ++ aws := by
    induction aws generalizing stages with
    | nil => simp
    | cons aw aws ih =>
      rw [List.flatMap_cons, List.foldl_append]
      have first : aw ∉ (stages.get i).map Stage.aw := fun mem =>
        (List.nodup_append.mp fresh).2.2 aw mem aw List.mem_cons_self rfl
      have group := group_awaits first
        (if f.vars = [] then [⟨i, aw, none⟩] else f.vars.map fun v => ⟨i, aw, some v⟩)
        (by split <;> simp_all) (by split <;> simp)
      rw [ih _ (by rw [group]; simpa using fresh), group, List.append_assoc]
      rfl
  exact groups f.awaits [] (by simpa [Stages.get] using f.awaits_nodup)

end Valor.Valet
