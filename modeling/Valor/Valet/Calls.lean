import Valor.Runtime.Lockstep
import Valor.Valet.Running

/-! The calls put into the statements instead of the text: this is what the text means when
every `co_await` stands directly in a block, and the program that runs it is Valet's. -/
namespace Valor.Valet

open Reactive Flow Code

variable {N : Type} {Val : Local → Type} {View Ev X R V : Type}

def calls (vars : Nat → List N) : Source → Code N
  | nil => nil
  | block b rest => block (calls vars b) (calls vars rest)
  | expr x e rest => expr x e (calls vars rest)
  | coawait s e rest =>
    save (s + 1) (vars s) (coawait s e (load (s + 1) (vars s) (calls vars rest)))
  | if' c t e rest => if' c (calls vars t) (calls vars e) (calls vars rest)
  | while' c b rest => while' c (calls vars b) (calls vars rest)
  | for' x i c inc b rest => for' x i c inc (calls vars b) (calls vars rest)
  | save _ _ rest | load _ _ rest | preamble _ rest => calls vars rest

namespace Code

/-- There are no calls in it. -/
def Bare : Code N → Prop
  | nil => True
  | block b rest | while' _ b rest | for' _ _ _ _ b rest => Bare b ∧ Bare rest
  | expr _ _ rest | coawait _ _ rest => Bare rest
  | if' _ t e rest => Bare t ∧ Bare e ∧ Bare rest
  | save _ _ _ | load _ _ _ | preamble _ _ => False

/-- Every `co_await` stands directly in a block; `direct` tells whether these statements do. -/
def Braced : Code N → Bool → Prop
  | nil, _ => True
  | block b rest, direct => Braced b true ∧ Braced rest direct
  | expr _ _ rest, direct | save _ _ rest, direct | load _ _ rest, direct
  | preamble _ rest, direct => Braced rest direct
  | coawait _ _ rest, direct => direct = true ∧ Braced rest direct
  | if' _ t e rest, direct => Braced t false ∧ Braced e false ∧ Braced rest direct
  | while' _ b rest, direct | for' _ _ _ _ b rest, direct => Braced b false ∧ Braced rest direct

theorem Formed.bare {c : Code N} (h : c.Formed) : c.Bare := by
  induction c with
  | nil => trivial
  | block _ _ ih ih' => exact ⟨ih h.1, ih' h.2⟩
  | expr _ _ _ ih | coawait _ _ _ ih => exact ih h
  | if' _ _ _ _ iht ihe ih =>
    obtain ⟨_, ht, _, he, hrest⟩ := h
    exact ⟨iht ht, ihe he, ih hrest⟩
  | while' _ _ _ ih ih' | for' _ _ _ _ _ _ ih ih' => exact ⟨ih h.2.1, ih' h.2.2⟩
  | _ => exact h

theorem Bare.append {c k : Code N} (h : c.Bare) (h' : k.Bare) : (c.append k).Bare := by
  induction c with
  | nil => exact h'
  | block _ _ _ ih | while' _ _ _ _ ih | for' _ _ _ _ _ _ _ ih => exact ⟨h.1, ih h.2⟩
  | expr _ _ _ ih | coawait _ _ _ ih => exact ih h
  | if' _ _ _ _ _ _ ih => exact ⟨h.1, h.2.1, ih h.2.2⟩
  | _ => exact h

theorem Bare.loop {b k : Code N} (h : b.Bare) (h' : k.Bare) (c : Cond) (inc : Expr) :
    (forLoop c inc b k).Bare :=
  ⟨h.append trivial, h'⟩

end Code

variable {vars : Nat → List N} {names : Nat → List String}

theorem calls_append (vars : Nat → List N) (c k : Source) :
    calls vars (c.append k) = (calls vars c).append (calls vars k) := by
  induction c <;> simp [calls, append, *]

theorem calls_loop (vars : Nat → List N) (c : Cond) (inc : Expr) (b k : Source) :
    calls vars (forLoop c inc b k) = forLoop c inc (calls vars b) (calls vars k) := by
  simp only [forLoop, calls, calls_append]

/-- Text and statements agree on the calls where no `co_await` is unbraced. -/
theorem spilled_braced (names : Nat → List String) {c : Source} (formed : c.Formed) :
    (c.Braced true → spill names c = some (calls names c)) ∧
    (c.Braced false → c ≠ nil → spillFirst names c = some (calls names c.head, nil)) := by
  -- Where the first statement keeps everything, the rest comes behind it.
  have join {c rest : Source} (same : calls names c = (calls names c.head).append (calls names rest))
      (first : spillFirst names c = some (calls names c.head, nil))
      (later : spill names rest = some (calls names rest)) :
      spillJoin (spillFirst names c) (spill names rest) = some (calls names c) := by
    rw [first, later, same]
    rfl
  induction c with
  | nil => exact ⟨fun _ => rfl, fun _ ne => absurd rfl ne⟩
  | block b rest ih ih' =>
    have first (braced : b.Braced true) :
        spillFirst names (block b rest) = some (calls names (block b nil), nil) := by
      simp only [spillFirst, spilled, (ih formed.1).1 braced, Option.map_some, calls]
    exact ⟨fun h => join rfl (first h.1) ((ih' formed.2).1 h.2), fun h _ => first h.1⟩
  | expr x e rest ih => exact ⟨fun h => join (c := expr x e rest) rfl rfl ((ih formed).1 h), fun _ _ => rfl⟩
  | coawait s e rest ih =>
    refine ⟨fun h => ?_, fun h => Bool.noConfusion h.1⟩
    have later := (ih formed).1 h.2
    simp only [spill, spilled] at later ⊢
    rw [later]
    rfl
  | if' g t e rest iht ihe ih =>
    obtain ⟨⟨ne, single⟩, innerT, choice, innerE, later⟩ := formed
    have first (bracedT : t.Braced false) (bracedE : e.Braced false) :
        spillFirst names (if' g t e rest) = some (calls names (if' g t e nil), nil) := by
      have inT := (iht innerT).2 bracedT ne
      rw [single] at inT
      simp only [spillFirst, spilled] at inT ⊢
      rw [inT]
      rcases choice with rfl | ⟨⟨neE, singleE⟩, _⟩
      · rfl
      · have inE := (ihe innerE).2 bracedE neE
        rw [singleE] at inE
        simp only [spillFirst] at inE
        simp [neE, inE, calls]
    exact ⟨fun h => join rfl (first h.1 h.2.1) ((ih later).1 h.2.2), fun h _ => first h.1 h.2.1⟩
  | while' g b rest ihb ih =>
    obtain ⟨⟨ne, single⟩, inner, later⟩ := formed
    have first (braced : b.Braced false) :
        spillFirst names (while' g b rest) = some (calls names (while' g b nil), nil) := by
      have inB := (ihb inner).2 braced ne
      rw [single] at inB
      simp only [spillFirst, spilled] at inB ⊢
      rw [inB]
      rfl
    exact ⟨fun h => join rfl (first h.1) ((ih later).1 h.2), fun h _ => first h.1⟩
  | for' x i g inc b rest ihb ih =>
    obtain ⟨⟨ne, single⟩, inner, later⟩ := formed
    have first (braced : b.Braced false) :
        spillFirst names (for' x i g inc b rest) = some (calls names (for' x i g inc b nil), nil) := by
      have inB := (ihb inner).2 braced ne
      rw [single] at inB
      simp only [spillFirst, spilled] at inB ⊢
      rw [inB]
      rfl
    exact ⟨fun h => join rfl (first h.1) ((ih later).1 h.2), fun h _ => first h.1⟩
  | _ => exact formed.elim

/-! ## Where the awaits and the labels are -/

theorem awaitsIn_append (c k k' : Code N) :
    awaitsIn (c.append k) k' = awaitsIn c (k.append k') ++ awaitsIn k k' := by
  induction c <;> simp [awaitsIn, append, append_assoc, *]

theorem awaitsIn_loop (c : Cond) (inc : Expr) (b k : Code N) : awaitsIn (forLoop c inc b k) nil =
    awaitsIn b (expr none inc (forLoop c inc b k)) ++ awaitsIn k nil := by
  simp [forLoop, awaitsIn, awaitsIn_append, append]

/-- What comes after an await has no calls and no awaits but those in sight. -/
theorem after_spec {c k r : Code N} {s : Nat} {e : Expr} (bare : c.Bare) (bare' : k.Bare)
    (mem : (s, e, r) ∈ awaitsIn c k) :
    r.Bare ∧ ∀ a ∈ awaitsIn r nil, a ∈ awaitsIn c k ∨ a ∈ awaitsIn k nil := by
  -- From the awaits in one part of a statement to those in all of it.
  have widen {c' k' c k : Code N} (h : r.Bare ∧ ∀ a ∈ awaitsIn r nil, a ∈ awaitsIn c' k' ∨
      a ∈ awaitsIn k' nil) (inner : ∀ a ∈ awaitsIn c' k', a ∈ awaitsIn c k)
      (outer : ∀ a ∈ awaitsIn k' nil, a ∈ awaitsIn c k ∨ a ∈ awaitsIn k nil) :
      r.Bare ∧ ∀ a ∈ awaitsIn r nil, a ∈ awaitsIn c k ∨ a ∈ awaitsIn k nil :=
    ⟨h.1, fun a ha => (h.2 a ha).elim (fun here => .inl (inner a here)) (outer a)⟩
  induction c generalizing k with
  | nil => cases mem
  | expr _ _ _ ih => exact ih bare bare' mem
  | coawait s' e' rest ih =>
    rcases List.mem_cons.mp mem with same | mem
    · cases same
      refine ⟨Bare.append bare bare', fun a ha => ?_⟩
      rw [awaitsIn_append, append_nil] at ha
      exact (List.mem_append.mp ha).imp_left (List.mem_cons_of_mem _)
    · refine widen (ih bare bare' mem) (fun a ha => List.mem_cons_of_mem _ ha) fun a ha => .inr ha
  | block b rest ih ih' =>
    simp only [awaitsIn, List.mem_append] at mem
    rcases mem with mem | mem
    · refine widen (ih bare.1 (bare.2.append bare') mem) ?_ ?_ <;>
        simp +contextual [awaitsIn, awaitsIn_append, or_imp]
    · exact widen (ih' bare.2 bare' mem) (by simp +contextual [awaitsIn]) fun a ha => .inr ha
  | if' g t e rest iht ihe ih =>
    simp only [awaitsIn, List.mem_append] at mem
    rcases mem with mem | mem | mem
    · refine widen (iht bare.1 (bare.2.2.append bare') mem) ?_ ?_ <;>
        simp +contextual [awaitsIn, awaitsIn_append, or_imp]
    · refine widen (ihe bare.2.1 (bare.2.2.append bare') mem) ?_ ?_ <;>
        simp +contextual [awaitsIn, awaitsIn_append, or_imp]
    · exact widen (ih bare.2.2 bare' mem) (by simp +contextual [awaitsIn]) fun a ha => .inr ha
  | while' g b rest ihb ih =>
    simp only [awaitsIn, List.mem_append] at mem
    rcases mem with mem | mem
    · refine widen (ihb bare.1 (k := while' g b (rest.append k)) ⟨bare.1, bare.2.append bare'⟩ mem)
        ?_ ?_ <;> simp +contextual [awaitsIn, awaitsIn_append, or_imp]
    · exact widen (ih bare.2 bare' mem) (by simp +contextual [awaitsIn]) fun a ha => .inr ha
  | for' x i g inc b rest ihb ih =>
    simp only [awaitsIn, List.mem_append] at mem
    rcases mem with mem | mem
    · refine widen (ihb bare.1 (k := expr none inc (forLoop g inc b (rest.append k)))
        (bare.1.loop (bare.2.append bare') g inc) mem) ?_ ?_ <;>
        simp +contextual [awaitsIn, awaitsIn_append, awaitsIn_loop, or_imp]
    · exact widen (ih bare.2 bare' mem) (by simp +contextual [awaitsIn]) fun a ha => .inr ha
  | _ => exact bare.elim

/-- There is one label for each await, in front of the load behind it. -/
theorem labels_calls (vars : Nat → List N) (c k : Source) (bare : c.Bare) :
    labels (calls vars c) (calls vars k) = (awaitsIn c k).map fun a =>
      (a.1 + 1, load (a.1 + 1) (vars a.1) (calls vars a.2.2)) := by
  induction c generalizing k with
  | nil => rfl
  | expr _ _ _ ih => exact ih k bare
  | coawait s e rest ih =>
    simp only [calls, labels, awaitsIn, List.map_cons, calls_append, ih k bare]
  | block b rest ihb ih =>
    simp only [calls, labels, awaitsIn, List.map_append, ← calls_append, ihb _ bare.1, ih k bare.2]
  | if' g t e rest iht ihe ih =>
    simp only [calls, labels, awaitsIn, List.map_append, ← calls_append, iht _ bare.1,
      ihe _ bare.2.1, ih k bare.2.2]
  | while' g b rest ihb ih =>
    have loop := ihb (while' g b (rest.append k)) bare.1
    rw [calls] at loop
    simp only [calls, labels, awaitsIn, List.map_append, ← calls_append, loop, ih k bare.2]
  | for' x i g inc b rest ihb ih =>
    have loop := ihb (expr none inc (forLoop g inc b (rest.append k))) bare.1
    rw [calls, calls_loop] at loop
    simp only [calls, labels, awaitsIn, List.map_append, ← calls_append, loop, ih k bare.2]
  | _ => exact bare.elim

end Valor.Valet
