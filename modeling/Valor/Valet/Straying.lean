import Valor.Valet.Calls

/-! A `co_await` that strays: where it is unbraced, the text with the calls runs it although
its condition has failed. `T` has the conditions that hold, and `a` is the operand. -/
namespace Valor.Valet

open Code

variable {N : Type}

/-- The await of `a` is not run. -/
def Quiet (T : Nat → Bool) (a : Nat) : Code N → Prop
  | nil => True
  | expr _ _ rest | save _ _ rest | load _ _ rest | preamble _ rest => Quiet T a rest
  | coawait _ e rest => e.id ≠ a ∧ Quiet T a rest
  | block b rest => Quiet T a b ∧ Quiet T a rest
  | if' c t e rest =>
    (T c.id = true → Quiet T a t) ∧ (T c.id = false → Quiet T a e) ∧ Quiet T a rest
  | while' c b rest | for' _ _ c _ b rest => (T c.id = true → Quiet T a b) ∧ Quiet T a rest

/-- These statements are run to their end, the loads finding what the saves have left. -/
inductive Passes (T : Nat → Bool) : Code N → Prop where
  | nil : Passes T nil
  | expr {x e rest} : Passes T rest → Passes T (expr x e rest)
  | block {b rest} : Passes T b → Passes T rest → Passes T (block b rest)
  | await {n vars s e rest} : Passes T rest →
      Passes T (save n vars (coawait s e (load n vars rest)))
  | then {c t e rest} : T c.id = true → Passes T t → Passes T rest → Passes T (if' c t e rest)
  | else {c t e rest} : T c.id = false → Passes T e → Passes T rest → Passes T (if' c t e rest)
  | while {c b rest} : T c.id = false → Passes T rest → Passes T (while' c b rest)
  | for {x i c inc b rest} : T c.id = false → Passes T rest → Passes T (for' x i c inc b rest)

/-- The await of `a` is run. -/
inductive Visits (T : Nat → Bool) (a : Nat) : Code N → Prop where
  | here {s e rest} : e.id = a → Visits T a (coawait s e rest)
  | past {c k} : Passes T c → Visits T a k → Visits T a (c.append k)
  | block {b rest} : Visits T a b → Visits T a (block b rest)
  | then {c t e rest} : T c.id = true → Visits T a t → Visits T a (if' c t e rest)
  | else {c t e rest} : T c.id = false → Visits T a e → Visits T a (if' c t e rest)
  | while {c b rest} : T c.id = true → Visits T a b → Visits T a (while' c b rest)
  | for {x i c inc b rest} : T c.id = true → Visits T a b → Visits T a (for' x i c inc b rest)

variable {T : Nat → Bool} {a : Nat}

theorem Visits.append {c : Code N} (h : Visits T a c) (k : Code N) : Visits T a (c.append k) := by
  induction h with
  | here same => exact .here same
  | past passes _ ih => exact append_assoc _ _ _ ▸ .past passes ih
  | block visits => exact .block visits
  | «then» holds visits => exact .then holds visits
  | «else» fails visits => exact .else fails visits
  | «while» holds visits => exact .while holds visits
  | «for» holds visits => exact .for holds visits

theorem Quiet.append {c k : Code N} (h : Quiet T a c) (h' : Quiet T a k) : Quiet T a (c.append k) := by
  induction c with
  | nil => exact h'
  | expr _ _ _ ih | save _ _ _ ih | load _ _ _ ih | preamble _ _ ih => exact ih h
  | coawait _ _ _ ih | block _ _ _ ih | while' _ _ _ _ ih | for' _ _ _ _ _ _ _ ih =>
    exact ⟨h.1, ih h.2⟩
  | if' _ _ _ _ _ _ ih => exact ⟨h.1, h.2.1, ih h.2.2⟩

theorem quiet_absent {c : Code N} (absent : a ∉ c.operands) : Quiet T a c := by
  induction c with
  | nil => trivial
  | expr _ _ _ ih | save _ _ _ ih | load _ _ _ ih | preamble _ _ ih => exact ih absent
  | coawait _ _ _ ih =>
    simp only [operands, List.mem_cons, not_or] at absent
    exact ⟨Ne.symm absent.1, ih absent.2⟩
  | block _ _ ih ih' =>
    simp only [operands, List.mem_append, not_or] at absent
    exact ⟨ih absent.1, ih' absent.2⟩
  | while' _ _ _ ih ih' | for' _ _ _ _ _ _ ih ih' =>
    simp only [operands, List.mem_append, not_or] at absent
    exact ⟨fun _ => ih absent.1, ih' absent.2⟩
  | if' _ _ _ _ iht ihe ih =>
    simp only [operands, List.mem_append, not_or] at absent
    exact ⟨fun _ => iht absent.1, fun _ => ihe absent.2.1, ih absent.2.2⟩

/-- Where no condition holds, the statements with the calls are run to their end. -/
theorem passes_calls {vars : Nat → List N} {c : Source} (bare : c.Bare)
    (fails : ∀ n ∈ c.conds, T n = false) : Passes T (calls vars c) := by
  induction c with
  | nil => exact .nil
  | expr _ _ _ ih => exact .expr (ih bare fails)
  | coawait _ _ _ ih => exact .await (ih bare fails)
  | block _ _ ih ih' =>
    obtain ⟨first, later⟩ := List.forall_mem_append.mp fails
    exact .block (ih bare.1 first) (ih' bare.2 later)
  | while' _ _ _ _ ih =>
    obtain ⟨here, later⟩ := List.forall_mem_cons.mp fails
    exact .while here (ih bare.2 (List.forall_mem_append.mp later).2)
  | for' _ _ _ _ _ _ _ ih =>
    obtain ⟨here, later⟩ := List.forall_mem_cons.mp fails
    exact .for here (ih bare.2 (List.forall_mem_append.mp later).2)
  | if' _ _ _ _ _ ihe ih =>
    obtain ⟨here, later⟩ := List.forall_mem_cons.mp fails
    obtain ⟨inE, rest⟩ := List.forall_mem_append.mp (List.forall_mem_append.mp later).2
    exact .else here (ihe bare.2.1 inE) (ih bare.2.2 rest)
  | _ => exact bare.elim

theorem conds_append (c k : Code N) : (c.append k).conds = c.conds ++ k.conds := by
  induction c <;> simp [conds, Code.append, *]

theorem operands_append (c k : Code N) : (c.append k).operands = c.operands ++ k.operands := by
  induction c <;> simp [operands, Code.append, *]

/-- Some conditions of `c` can be chosen, the others failing, so that `out` runs an await which
`c` does not run. -/
def Strays (c out : Source) : Prop :=
  ∃ (on : List Nat) (a : Nat), (∀ n ∈ on, n ∈ c.conds) ∧ a ∈ c.operands ∧
    ∀ T, (∀ n ∈ c.conds, T n = decide (n ∈ on)) → Quiet T a c ∧ Visits T a out

namespace Strays

variable {c c' b out first stmt : Source} {g : Cond} {names : Nat → List String}

theorem inside {b' : Source} {more : List Nat} (h : Strays b b')
    (conds : c.conds = g.id :: (b.conds ++ more)) (nodup : c.conds.Nodup)
    (operands : ∀ a ∈ b.operands, a ∈ c.operands)
    (quiet : ∀ {T a}, T g.id = true → Quiet T a b → Quiet T a c)
    (visits : ∀ {T a}, T g.id = true → Visits T a b' → Visits T a out) : Strays c out := by
  obtain ⟨on, a, sub, mem, tells⟩ := h
  have fresh : g.id ∉ b.conds := fun here =>
    (List.nodup_cons.mp (conds ▸ nodup)).1 (List.mem_append_left _ here)
  have inner : ∀ n ∈ b.conds, n ∈ c.conds := fun n hn =>
    conds ▸ List.mem_cons_of_mem _ (List.mem_append_left _ hn)
  have here : g.id ∈ c.conds := conds ▸ List.mem_cons_self
  refine ⟨g.id :: on, a, ?_, operands a mem, fun T hT => ?_⟩
  · exact List.forall_mem_cons.mpr ⟨here, fun n hn => inner n (sub n hn)⟩
  · have holds : T g.id = true := by simp [hT _ here]
    have same : ∀ n ∈ b.conds, T n = decide (n ∈ on) := by
      intro n hn
      have other : n ≠ g.id := fun h => fresh (h ▸ hn)
      simp [hT n (inner n hn), other]
    obtain ⟨left, right⟩ := tells T same
    exact ⟨quiet holds left, visits holds right⟩

theorem behind {s : Nat} {e : Expr} {k : Source} (on : List Nat) (sub : ∀ n ∈ on, n ∈ c.conds)
    (mem : e.id ∈ c.operands) (tells : ∀ T, (∀ n ∈ c.conds, T n = decide (n ∈ on)) →
      Quiet T e.id c ∧ Passes T stmt) : Strays c (stmt.append (coawait s e k)) :=
  ⟨on, e.id, sub, mem, fun T hT => ⟨(tells T hT).1, .past (tells T hT).2 (.here rfl)⟩⟩

theorem here (h : Strays first out) (nodup : (first.append c).operands.Nodup) (k : Source) :
    Strays (first.append c) (out.append k) := by
  obtain ⟨on, a, sub, mem, tells⟩ := h
  rw [operands_append] at nodup
  have absent : a ∉ c.operands := fun h => (List.nodup_append.mp nodup).2.2 a mem a h rfl
  refine ⟨on, a, fun n hn => ?_, ?_, fun T hT => ?_⟩
  · exact conds_append first c ▸ List.mem_append_left _ (sub n hn)
  · exact operands_append first c ▸ List.mem_append_left _ mem
  · rw [conds_append] at hT
    obtain ⟨quiet, visits⟩ := tells T fun n hn => hT n (List.mem_append_left _ hn)
    exact ⟨quiet.append (quiet_absent absent), visits.append k⟩

theorem later (h : Strays c c') (bare : first.Bare) (conds : (first.append c).conds.Nodup)
    (operands : (first.append c).operands.Nodup) :
    Strays (first.append c) ((calls names first).append c') := by
  obtain ⟨on, a, sub, mem, tells⟩ := h
  rw [conds_append] at conds
  rw [operands_append] at operands
  have absent : a ∉ first.operands := fun h => (List.nodup_append.mp operands).2.2 a h a mem rfl
  refine ⟨on, a, fun n hn => ?_, ?_, fun T hT => ?_⟩
  · exact conds_append first c ▸ List.mem_append_right _ (sub n hn)
  · exact operands_append first c ▸ List.mem_append_right _ mem
  · rw [conds_append] at hT
    obtain ⟨quiet, visits⟩ := tells T fun n hn => hT n (List.mem_append_right _ hn)
    have fails : ∀ n ∈ first.conds, T n = false := by
      intro n hn
      have off : n ∉ on := fun h => (List.nodup_append.mp conds).2.2 n hn n (sub n h) rfl
      simp [hT n (List.mem_append_left _ hn), off]
    exact ⟨(quiet_absent absent).append quiet, .past (passes_calls bare fails) visits⟩

end Strays

theorem braced_append {c k : Code N} {direct : Bool} :
    (c.append k).Braced direct ↔ c.Braced direct ∧ k.Braced direct := by
  induction c <;> simp [Braced, Code.append, and_assoc, *]

theorem head_braced {c : Source} (other : ∀ s e, c.head ≠ coawait s e nil)
    (h : c.head.Braced true) : c.head.Braced false := by
  cases c with
  | coawait s e rest => exact absurd rfl (other s e)
  | _ => exact h

theorem Strays.join {names : Nat → List String} (first : Source) {rest : Source} (bare : first.Bare)
    (conds : (first.append rest).conds.Nodup) (operands : (first.append rest).operands.Nodup)
    (joined : spill names (first.append rest) = spillJoin (spillFirst names first) (spill names rest))
    (plain : first.Braced true → ∃ stmt tail, spillFirst names first = some (stmt, tail) ∧
      stmt.append tail = calls names first)
    (inFirst : ∀ {stmt tail}, ¬ first.Braced true → spillFirst names first = some (stmt, tail) →
      Strays first (stmt.append tail))
    (inRest : ∀ {c'}, ¬ rest.Braced true → spill names rest = some c' → Strays rest c') {c' : Source}
    (unbraced : ¬ (first.append rest).Braced true) (h : spill names (first.append rest) = some c') :
    Strays (first.append rest) c' := by
  rw [joined] at h
  obtain ⟨⟨stmt, tail⟩, hfirst, h⟩ := Option.bind_eq_some_iff.mp h
  obtain ⟨rest', hrest, h⟩ := Option.bind_eq_some_iff.mp h
  cases h
  rw [← append_assoc]
  by_cases braced : first.Braced true
  · obtain ⟨_, _, hplain, same⟩ := plain braced
    cases hfirst.symm.trans hplain
    rw [same]
    exact (inRest (fun h => unbraced (braced_append.mpr ⟨braced, h⟩)) hrest).later bare conds operands
  · exact (inFirst braced hfirst).here operands rest'

/-- What the text with the calls in it runs where it should not, for the first statement, if
that is no `co_await` itself, and for all of them. -/
structure Straying (names : Nat → List String) (c : Source) : Prop where
  first : ∀ {stmt tail}, (∀ s e, c.head ≠ coawait s e nil) → ¬ c.head.Braced true →
    spillFirst names c = some (stmt, tail) → Strays c.head (stmt.append tail)
  all : ∀ {c'}, ¬ c.Braced true → spill names c = some c' → Strays c c'

/-- A substatement with an unbraced `co_await`: it strays inside, or spills. -/
theorem substatement {names : Nat → List String} {t t' tail : Source} (single : Single t)
    (ih : Straying names t) (unbraced : ¬ t.Braced false) (h : spillFirst names t = some (t', tail)) :
    tail = nil ∧ Strays t t' ∨ ∃ s e k, e.id ∈ t.operands ∧ tail = coawait s e k := by
  rcases spillFirst_tail h with rfl | ⟨s, e, mem, rfl⟩
  · have other : ∀ s e, t.head ≠ coawait s e nil := by
      intro s e same
      rw [single.2] at same
      subst same
      cases h
    have stray := ih.first other (fun braced => unbraced (single.2 ▸ head_braced other braced)) h
    rw [append_nil, single.2] at stray
    exact .inl ⟨rfl, stray⟩
  · exact .inr ⟨s, e, _, mem, rfl⟩

theorem nodup_first (first : Source) {rest : Source} (conds : (first.append rest).conds.Nodup)
    (operands : (first.append rest).operands.Nodup) :
    first.conds.Nodup ∧ first.operands.Nodup :=
  ⟨(List.nodup_append.mp (conds_append first rest ▸ conds)).1,
    (List.nodup_append.mp (operands_append first rest ▸ operands)).1⟩

theorem Strays.if_else {names : Nat → List String} {g : Cond} {t t' e e' tail : Source}
    (conds : (if' g t e nil).conds.Nodup) (operands : (if' g t e nil).operands.Nodup)
    (formed : t.Formed) (single : Single t) (single' : Single e)
    (iht : Straying names t) (ihe : Straying names e) (unbraced : ¬ (if' g t e nil).Braced true)
    (ht : spillFirst names t = some (t', nil))
    (he : spillFirst names e = some (e', tail)) :
    Strays (if' g t e nil) ((if' g t' e' nil).append tail) := by
  obtain ⟨fresh, distinct⟩ := List.nodup_cons.mp conds
  by_cases braced : t.Braced false
  · have unbraced' : ¬ e.Braced false := fun h => unbraced ⟨braced, h, trivial⟩
    rcases substatement single' ihe unbraced' he with ⟨rfl, h⟩ | ⟨s, x, k, mem, rfl⟩
    · obtain ⟨on, a, sub, mem, tells⟩ := h
      have inner : ∀ n ∈ e.conds, n ∈ (if' g t e nil).conds := fun n hn =>
        List.mem_cons_of_mem _ (List.mem_append_right _ (List.mem_append_left _ hn))
      refine ⟨on, a, fun n hn => inner n (sub n hn),
        List.mem_append_right _ (List.mem_append_left _ mem), fun T hT => ?_⟩
      have off : g.id ∉ on := fun h =>
        fresh (List.mem_append_right _ (List.mem_append_left _ (sub _ h)))
      have fails : T g.id = false := by simp [hT g.id List.mem_cons_self, off]
      obtain ⟨quiet, visits⟩ := tells T fun n hn => hT n (inner n hn)
      rw [append_nil]
      exact ⟨⟨fun holds => absurd holds (by simp [fails]), fun _ => quiet, trivial⟩, .else fails visits⟩
    · -- The `else` is spilled, so the run of the first branch comes to it.
      have same : t' = calls names t := by
        have plain := (spilled_braced names formed).2 braced single.1
        rw [single.2] at plain
        cases ht.symm.trans plain
        rfl
      have absent : x.id ∉ t.operands := fun h =>
        (List.nodup_append.mp operands).2.2 _ h _ (List.mem_append_left _ mem) rfl
      refine .behind [g.id] (by simp [Code.conds])
        (List.mem_append_right _ (List.mem_append_left _ mem)) fun T hT => ?_
      have holds : T g.id = true := by simp [hT g.id List.mem_cons_self]
      have fails : ∀ n ∈ t.conds, T n = false := by
        intro n hn
        have other : n ≠ g.id := fun h => fresh (h ▸ List.mem_append_left _ hn)
        simp [hT n (List.mem_cons_of_mem _ (List.mem_append_left _ hn)), other]
      rw [same]
      exact ⟨⟨fun _ => quiet_absent absent, fun fails => absurd holds (by simp [fails]), trivial⟩,
        .then holds (passes_calls formed.bare fails) .nil⟩
  · rcases substatement single iht braced ht with ⟨_, h⟩ | ⟨s, x, k, _, same⟩
    · exact h.inside rfl conds (fun a ha => List.mem_append_left _ ha)
        (fun holds quiet => ⟨fun _ => quiet, fun fails => absurd holds (by simp [fails]), trivial⟩)
        fun holds visits => (Visits.then holds visits).append tail
    · cases same

theorem Strays.loop {names : Nat → List String} {c b b' tail : Source} {g : Cond}
    {more : List Nat} (wrap : Source → Source) (nodup : c.conds.Nodup)
    (conds : c.conds = g.id :: (b.conds ++ more)) (operands : ∀ a ∈ b.operands, a ∈ c.operands)
    (single : Single b) (ih : Straying names b) (unbraced : ¬ b.Braced false)
    (h : spillFirst names b = some (b', tail))
    (quiet : ∀ {T a}, (T g.id = true → Quiet T a b) → Quiet T a c)
    (visits : ∀ {T a}, T g.id = true → Visits T a b' → Visits T a (wrap b'))
    (passes : ∀ {T}, T g.id = false → Passes T (wrap b')) :
    Strays c ((wrap b').append tail) := by
  rcases substatement single ih unbraced h with ⟨rfl, stray⟩ | ⟨s, x, k, mem, rfl⟩
  · exact stray.inside conds nodup operands (fun _ inner => quiet fun _ => inner)
      fun holds inner => (visits holds inner).append nil
  · refine .behind [] (by simp) (operands _ mem) fun T hT => ?_
    have fails : T g.id = false := hT g.id (conds ▸ List.mem_cons_self)
    exact ⟨quiet fun holds => absurd holds (by simp [fails]), passes fails⟩

theorem Straying.join {names : Nat → List String} (first : Source) {rest : Source}
    (formed : first.Formed) (conds : (first.append rest).conds.Nodup)
    (operands : (first.append rest).operands.Nodup)
    (joined : spill names (first.append rest) = spillJoin (spillFirst names first) (spill names rest))
    (alone : spillFirst names (first.append rest) = spillFirst names first)
    (head : (first.append rest).head = first)
    (plain : first.Braced true → spillFirst names first = some (calls names first, nil))
    (inFirst : ∀ {stmt tail}, ¬ first.Braced true → spillFirst names first = some (stmt, tail) →
      Strays first (stmt.append tail)) (ih : Straying names rest) :
    Straying names (first.append rest) := by
  refine ⟨fun _ unbraced h => ?_, .join first formed.bare conds operands joined ?_ inFirst ih.all⟩
  · rw [head] at unbraced ⊢
    exact inFirst unbraced (alone ▸ h)
  · exact fun braced => ⟨_, _, plain braced, append_nil _⟩

theorem straying (names : Nat → List String) {c : Source} (formed : c.Formed)
    (conds : c.conds.Nodup) (operands : c.operands.Nodup) : Straying names c := by
  induction c with
  | nil =>
    exact ⟨fun _ unbraced _ => absurd trivial unbraced, fun unbraced _ => absurd trivial unbraced⟩
  | block b rest ih ih' =>
    have nodups := List.nodup_append.mp conds
    have nodups' := List.nodup_append.mp operands
    have formed' : (block b nil).Formed := ⟨formed.1, trivial⟩
    refine .join (block b nil) formed' conds operands rfl rfl rfl
      (fun braced => (spilled_braced names formed').2 braced (by simp)) ?_
      (ih' formed.2 nodups.2.1 nodups'.2.1)
    intro stmt tail unbraced h
    obtain ⟨b', hb, same⟩ := Option.map_eq_some_iff.mp h
    cases same
    obtain ⟨on, a, sub, mem, tells⟩ :=
      (ih formed.1 nodups.1 nodups'.1).all (fun h => unbraced ⟨h, trivial⟩) hb
    refine ⟨on, a, by simpa [Code.conds] using sub, by simpa [Code.operands] using mem, ?_⟩
    intro T hT
    obtain ⟨quiet, visits⟩ := tells T (by simpa [Code.conds] using hT)
    exact ⟨⟨quiet, trivial⟩, .block visits⟩
  | expr x e rest ih =>
    refine ⟨fun _ unbraced _ => absurd trivial unbraced, .join (expr x e nil) trivial conds
      operands rfl (fun _ => ⟨_, _, rfl, rfl⟩) (fun unbraced _ => absurd trivial unbraced)
      (ih formed conds operands).all⟩
  | coawait s e rest ih =>
    refine ⟨fun other => absurd rfl (other s e), .join (coawait s e nil) trivial conds
      operands rfl (fun _ => ⟨_, _, rfl, rfl⟩) (fun unbraced _ => absurd ⟨rfl, trivial⟩ unbraced)
      (ih formed conds (List.nodup_cons.mp operands).2).all⟩
  | if' g t e rest iht ihe ih =>
    obtain ⟨nodup, nodup'⟩ := nodup_first (if' g t e nil) conds operands
    obtain ⟨single, innerT, choice, innerE, later⟩ := formed
    have formed' : (if' g t e nil).Formed := ⟨single, innerT, choice, innerE, trivial⟩
    have nodups := List.nodup_append.mp (List.nodup_cons.mp conds).2
    have nodups' := List.nodup_append.mp operands
    have nodups₂ := List.nodup_append.mp nodups.2.1
    have nodups₂' := List.nodup_append.mp nodups'.2.1
    have iht := iht innerT nodups.1 nodups'.1
    have ihe := ihe innerE nodups₂.1 nodups₂'.1
    refine .join (if' g t e nil) formed' conds operands rfl rfl rfl
      (fun braced => (spilled_braced names formed').2 braced (by simp)) ?_
      (ih later nodups₂.2.1 nodups₂'.2.1)
    intro stmt tail unbraced h
    simp only [spillFirst, spilled] at h
    split at h
    · rename_i none
      subst none
      obtain ⟨⟨t', _⟩, ht, same⟩ := Option.map_eq_some_iff.mp h
      cases same
      exact .loop (if' g · nil nil) nodup rfl
        (fun a ha => List.mem_append_left _ ha) single iht
        (fun h => unbraced ⟨h, trivial, trivial⟩) ht
        (fun inner => ⟨inner, fun _ => trivial, trivial⟩) Visits.then fun fails => .else fails .nil .nil
    · rename_i some'
      obtain ⟨⟨t', _⟩, ht, h⟩ := Option.bind_eq_some_iff.mp h
      split at h
      · rename_i empty
        cases empty
        obtain ⟨⟨e', _⟩, he, same⟩ := Option.map_eq_some_iff.mp h
        cases same
        exact .if_else nodup nodup' innerT single (choice.resolve_left some').1 iht ihe unbraced ht he
      · cases h
  | while' g b rest ihb ih =>
    obtain ⟨nodup, _⟩ := nodup_first (while' g b nil) conds operands
    obtain ⟨single, inner, later⟩ := formed
    have formed' : (while' g b nil).Formed := ⟨single, inner, trivial⟩
    have nodups := List.nodup_append.mp (List.nodup_cons.mp conds).2
    have nodups' := List.nodup_append.mp operands
    refine .join (while' g b nil) formed' conds operands rfl rfl rfl
      (fun braced => (spilled_braced names formed').2 braced (by simp)) ?_
      (ih later nodups.2.1 nodups'.2.1)
    intro stmt tail unbraced h
    obtain ⟨⟨b', _⟩, hb, same⟩ := Option.map_eq_some_iff.mp h
    cases same
    exact .loop (while' g · nil) nodup rfl (fun a ha => List.mem_append_left _ ha) single
      (ihb inner nodups.1 nodups'.1) (fun h => unbraced ⟨h, trivial⟩) hb
      (fun inner => ⟨inner, trivial⟩) Visits.while fun fails => .while fails .nil
  | for' x i g inc b rest ihb ih =>
    obtain ⟨nodup, _⟩ := nodup_first (for' x i g inc b nil) conds operands
    obtain ⟨single, inner, later⟩ := formed
    have formed' : (for' x i g inc b nil).Formed := ⟨single, inner, trivial⟩
    have nodups := List.nodup_append.mp (List.nodup_cons.mp conds).2
    have nodups' := List.nodup_append.mp operands
    refine .join (for' x i g inc b nil) formed' conds operands rfl rfl rfl
      (fun braced => (spilled_braced names formed').2 braced (by simp)) ?_
      (ih later nodups.2.1 nodups'.2.1)
    intro stmt tail unbraced h
    obtain ⟨⟨b', _⟩, hb, same⟩ := Option.map_eq_some_iff.mp h
    cases same
    exact .loop (for' x i g inc · nil) nodup rfl (fun a ha => List.mem_append_left _ ha) single
      (ihb inner nodups.1 nodups'.1) (fun h => unbraced ⟨h, trivial⟩) hb
      (fun inner => ⟨inner, trivial⟩) Visits.for fun fails => .for fails .nil
  | _ => exact formed.elim

end Valor.Valet
