import Mathlib.Data.List.FinRange
import Valor.Valet.Calls

/-! The program of the statements with the calls in them runs as `valetProgram` does on the
coroutine as it is written, and the names in the calls are those of variables in scope. -/
namespace Valor.Valet

open Reactive Flow Code

variable {Val : Local → Type} {View Ev X R V : Type}

namespace Coroutine

variable {f : Coroutine} {locals : Nat → List Local} {s : Nat} {e : Expr} {r : Source}

theorem numbers_nodup (f : Coroutine) : f.body.numbers.Nodup :=
  f.numbered ▸ List.nodup_range

theorem awaitAt_mem (mem : (s, e, r) ∈ awaitsIn f.body nil) : f.awaitAt s = some (e, r) := by
  rw [awaitAt, find_key (p := (s, e, r)) f.numbers_nodup mem]
  rfl

theorem mem_awaitAt (h : f.awaitAt s = some (e, r)) : (s, e, r) ∈ awaitsIn f.body nil := by
  obtain ⟨⟨s', a⟩, found, rfl⟩ := Option.map_eq_some_iff.mp h
  have key : s' = s := by simpa using List.find?_some found
  exact key ▸ List.mem_of_find?_eq_some found

theorem mem_numbers : s ∈ f.body.numbers ↔ s < f.count := by
  rw [f.numbered, List.mem_range]

theorem number_lt (mem : (s, e, r) ∈ awaitsIn f.body nil) : s < f.count :=
  mem_numbers.mp (List.mem_map_of_mem (f := Prod.fst) mem)

theorem exists_awaitAt (s : Fin f.count) : ∃ e r, f.awaitAt s = some (e, r) := by
  obtain ⟨⟨_, e, r⟩, mem, rfl⟩ := List.mem_map.mp (mem_numbers.mpr s.isLt)
  exact ⟨e, r, awaitAt_mem mem⟩

theorem node_await {s : Fin f.count} {p : Source} (h : f.graph.node p = .await s) :
    ∃ e rest, p = coawait s e rest := by
  cases p with
  | coawait n e rest =>
    simp only [graph, node] at h
    split at h
    · cases h
      exact ⟨e, rest, rfl⟩
    · cases h
  | _ => cases h

theorem after_inside {s : Fin f.count} (h : f.awaitAt s = some (e, r)) :
    f.graph.after s = r ∧ r.Bare ∧ ∀ a ∈ awaitsIn r nil, a ∈ awaitsIn f.body nil := by
  obtain ⟨bare, inside⟩ := after_spec f.formed.bare (k := nil) trivial (mem_awaitAt h)
  refine ⟨?_, bare, fun a ha => (inside a ha).resolve_right List.not_mem_nil⟩
  simp only [graph, h, Option.map_some, Option.getD_some]

/-- The coroutine with what its calls save and load. -/
def bodyOf (f : Coroutine) (locals : Nat → List Local) : Body Source Local f.count :=
  ⟨f.graph, f.params, fun s => locals s⟩

theorem void (f : Coroutine) (locals : Nat → List Local) : (f.bodyOf locals).Void :=
  fun _ => ⟨rfl, rfl⟩

def output (f : Coroutine) (locals : Nat → List Local) : Code Local :=
  preamble ⟨f.returnType, f.count⟩ (calls locals f.body)

/-- Where the program is when `valetProgram` is at some point. -/
inductive At (f : Coroutine) (locals : Nat → List Local) :
    VPoint Source f.count → Code Local → Prop where
  | preamble : At f locals .preamble (f.output locals)
  | user {p : Source} : p.Bare → (∀ a ∈ awaitsIn p nil, a ∈ awaitsIn f.body nil) →
      At f locals (.user p) (calls locals p)
  | await {s : Fin f.count} {e r} : f.awaitAt s = some (e, r) → At f locals (.await s)
      (coawait s e (load (s + 1) (locals s) (calls locals r)))
  | label {s : Fin f.count} {e r} : f.awaitAt s = some (e, r) →
      At f locals (.label s) (load (s + 1) (locals s) (calls locals r))

theorem At.entry (f : Coroutine) (locals : Nat → List Local) :
    At f locals (.user f.body) (calls locals f.body) :=
  .user f.formed.bare fun _ ha => ha

theorem At.after {s : Fin f.count} (h : f.awaitAt s = some (e, r)) :
    At f locals (.user (f.graph.after s)) (calls locals r) := by
  obtain ⟨after, bare, inside⟩ := after_inside h
  rw [after]
  exact .user bare inside

theorem At.table (f : Coroutine) (locals : Nat → List Local) : List.Forall₂ (At f locals)
    (List.ofFn VPoint.label) ((List.range f.count).map fun i =>
      (((labels (f.output locals) nil).find? fun p => p.1 = i + 1).map Prod.snd).getD nil) := by
  rw [List.ofFn_eq_map, ← List.map_coe_finRange_eq_range, List.map_map, List.forall₂_map_left_iff,
    List.forall₂_map_right_iff, List.forall₂_same]
  intro s _
  obtain ⟨e, r, h⟩ := exists_awaitAt s
  have all : labels (calls locals f.body) nil = _ := labels_calls locals f.body nil f.formed.bare
  have found : (awaitsIn f.body nil).find? ((fun p => decide (p.1 = s.val + 1)) ∘ fun a =>
      (a.1 + 1, load (a.1 + 1) (locals a.1) (calls locals a.2.2))) = some (s.val, e, r) := by
    simpa [Function.comp_def] using find_key f.numbers_nodup (mem_awaitAt h)
  simp only [output, labels, Function.comp_apply, all]
  rw [List.find?_map, found]
  exact .label h

theorem next_spec {p q : Source} {reads writes : Set Local} {qs : List Source} (bare : p.Bare)
    (e : f.graph.node p = .code reads writes q qs) :
    ∀ q' ∈ q :: qs, q'.Bare ∧ ∀ a ∈ awaitsIn q' nil, a ∈ awaitsIn p nil := by
  cases p with
  | block b rest =>
    cases e
    simpa [awaitsIn, awaitsIn_append] using bare.1.append bare.2
  | expr x e' rest =>
    cases e
    intro q' mem
    cases List.mem_singleton.mp mem
    exact ⟨bare, fun a ha => ha⟩
  | coawait s e' rest =>
    simp only [graph, node] at e
    split at e <;> cases e
  | if' c t e' rest =>
    cases e
    have left := bare.1.append bare.2.2
    have right := bare.2.1.append bare.2.2
    simp +contextual [awaitsIn, awaitsIn_append, or_imp, left, right]
  | while' c b rest =>
    cases e
    have loop := bare.1.append (k := while' c b rest) bare
    simp +contextual [awaitsIn, awaitsIn_append, or_imp, loop, bare.2]
  | for' x i c inc b rest =>
    cases e
    simpa [awaitsIn, awaitsIn_loop] using bare.1.loop bare.2 c inc
  | nil => cases e
  | _ => exact bare.elim

theorem At.user_same (locals : Nat → List Local) (sem : Sem Val Ev X V) {p : Source} (bare : p.Bare)
    (inside : ∀ a ∈ awaitsIn p nil, a ∈ awaitsIn f.body nil) :
    Instr.Same (At f locals)
      ((valetProgram (f.bodyOf locals) (f.meaning (R := R) sem)).fetch (.user p))
      ((program sem f.params f.ret (f.output locals)).fetch (calls locals p)) := by
  have next {reads writes q qs h l} {k : Code Local} (e : f.graph.node p = .code reads writes q qs)
      (same : calls locals ((f.meaning (R := R) sem).branch p h l) = k) :
      At f locals (.user ((f.meaning (R := R) sem).branch p h l)) k := by
    obtain ⟨bare', inside'⟩ := next_spec bare e _ ((f.meaning sem).branch_mem e)
    rw [← same]
    exact .user bare' fun a ha => inside a (inside' a ha)
  cases p with
  | nil => exact .coreturn
  | block b rest => exact .code fun h l => ⟨rfl, rfl, next rfl (calls_append _ _ _)⟩
  | expr x e rest => exact .code fun h l => ⟨rfl, rfl, next rfl rfl⟩
  | coawait s e rest =>
    have here : (s, e, rest) ∈ awaitsIn f.body nil := by
      simpa using inside (s, e, rest.append nil) List.mem_cons_self
    have lt := number_lt here
    simp only [valetProgram, bodyOf, graph, node, dif_pos lt]
    exact .save (.await (s := ⟨s, lt⟩) (awaitAt_mem here))
  | if' c t e rest =>
    refine .code fun h l => ⟨rfl, rfl, next rfl ?_⟩
    simp only [meaning, apply_ite (calls locals), calls_append]
  | while' c b rest =>
    refine .code fun h l => ⟨rfl, rfl, next rfl ?_⟩
    simp only [meaning, apply_ite (calls locals), calls_append]
    rfl
  | for' x i c inc b rest => exact .code fun h l => ⟨rfl, rfl, next rfl (calls_loop _ _ _ _ _)⟩
  | _ => exact bare.elim

/-- The statements with the calls are the program that Valet makes of the body. -/
theorem output_same (f : Coroutine) (locals : Nat → List Local) (sem : Sem Val Ev X V) :
    Program.Same (At f locals) (valetProgram (f.bodyOf locals) (f.meaning (R := R) sem))
      (program sem f.params f.ret (f.output locals)) where
  entry := .preamble
  params := rfl
  fetch := by
    intro pc pc' h
    cases h with
    | preamble => exact .dispatch (.cons (.entry f locals) (At.table f locals)) (.entry f locals)
    | @await s e r h =>
      have operand : (f.meaning (R := R) sem).operand s = sem.operand e := by
        funext h' l
        simp only [meaning, h, Option.map_some, Option.getD_some]
      simp only [valetProgram, operand]
      exact .coawait (.label h)
    | label h => exact .load (.after h)
    | user bare inside => exact At.user_same locals sem bare inside

end Coroutine

/-! ## The names -/

theorem mapM_isSome {A B : Type} {g : A → Option B} {l : List A} :
    (l.mapM g).isSome ↔ ∀ a ∈ l, (g a).isSome := by
  induction l with
  | nil => simp
  | cons a l ih =>
    rw [List.mapM_cons]
    cases ha : g a with
    | none => simp [ha]
    | some b => cases hl : l.mapM g <;> simp_all

theorem mem_mapM {A B : Type} {g : A → Option B} {l : List A} {r : List B} (h : l.mapM g = some r)
    {b : B} : b ∈ r ↔ ∃ a ∈ l, g a = some b := by
  induction l generalizing r with
  | nil =>
    cases h
    simp
  | cons a l ih =>
    rw [List.mapM_cons] at h
    obtain ⟨b', hb, h⟩ := Option.bind_eq_some_iff.mp h
    obtain ⟨r', hr, h⟩ := Option.bind_eq_some_iff.mp h
    cases h
    simp [hb, ih hr, eq_comm]

/-- The calls can be resolved with what their names denote. -/
theorem resolves_calls {names : Nat → List String} {locals : Nat → List Local} {env : List Local}
    {c : Source} {r : Code Local} (bare : c.Bare) (compiles : Resolves env c r)
    (known : ∀ p ∈ scopes env c, (names p.1).mapM (lookup p.2) = some (locals p.1)) :
    Resolves env (calls names c) (calls locals c) := by
  induction compiles with
  | nil => exact .nil
  | block _ _ ih ih' =>
    obtain ⟨inB, later⟩ := List.forall_mem_append.mp known
    exact .block (ih bare.1 inB) (ih' bare.2 later)
  | expr named _ ih => exact .expr named (ih bare known)
  | coawait named _ ih =>
    obtain ⟨here, later⟩ := List.forall_mem_cons.mp known
    exact .save here (.coawait named (.load here (ih bare later)))
  | if' named _ _ _ iht ihe ih =>
    obtain ⟨inT, known⟩ := List.forall_mem_append.mp known
    obtain ⟨inE, later⟩ := List.forall_mem_append.mp known
    exact .if' named (iht bare.1 inT) (ihe bare.2.1 inE) (ih bare.2.2 later)
  | while' named _ _ ihb ih =>
    obtain ⟨inB, later⟩ := List.forall_mem_append.mp known
    exact .while' named (ihb bare.1 inB) (ih bare.2 later)
  | for' named _ _ ihb ih =>
    obtain ⟨inB, later⟩ := List.forall_mem_append.mp known
    exact .for' named (ihb bare.1 inB) (ih bare.2 later)
  | _ => exact bare.elim

/-- Only if the names of every await are declared there do the calls compile. -/
theorem resolves_calls_known {names : Nat → List String} {env : List Local} {c : Source}
    (bare : c.Bare) {r : Code Local} (compiled : Resolves env (calls names c) r) :
    ∀ p ∈ scopes env c, ∀ name ∈ names p.1, (lookup p.2 name).isSome := by
  induction c generalizing env r with
  | nil => simp [scopes]
  | block b rest ih ih' =>
    cases compiled with
    | block inB later => exact List.forall_mem_append.mpr ⟨ih bare.1 inB, ih' bare.2 later⟩
  | expr x e rest ih =>
    cases compiled with
    | expr _ later => exact ih bare later
  | coawait s e rest ih =>
    cases compiled with
    | save found compiled =>
      cases compiled with
      | coawait _ compiled =>
        cases compiled with
        | load _ later =>
          refine List.forall_mem_cons.mpr ⟨?_, ih bare later⟩
          exact mapM_isSome.mp (Option.isSome_iff_exists.mpr ⟨_, found⟩)
  | if' g t e rest iht ihe ih =>
    cases compiled with
    | if' _ inT inE later =>
      refine List.forall_mem_append.mpr ⟨iht bare.1 inT, ?_⟩
      exact List.forall_mem_append.mpr ⟨ihe bare.2.1 inE, ih bare.2.2 later⟩
  | while' g b rest ihb ih =>
    cases compiled with
    | while' _ inB later => exact List.forall_mem_append.mpr ⟨ihb bare.1 inB, ih bare.2 later⟩
  | for' x i g inc b rest ihb ih =>
    cases compiled with
    | for' _ inB later => exact List.forall_mem_append.mpr ⟨ihb bare.1 inB, ih bare.2 later⟩
  | _ => exact bare.elim

end Valor.Valet
