import Valor.Runtime.Machine

/-! A full-expression whose operands are guarded awaits
`(p->aw.has(i) ? p->aw.get_as<T>(i) : co_await x)`. The index is meant to be the operand's, but
`await_transform` appends the first awaiter it sees. -/
namespace Valor

open Reactive Flow

variable {X R : Type}

/-- The operands by their index: the awaiter, what `get_as` makes of an element of `aw` (`none`
is a failed cast; a void operand reads nothing), and what an awaiter returns from `await_resume`. -/
structure Group (X R : Type) where
  awaiter : Nat → X
  getAs : Nat → Held X R → Option R
  awaitResume : X → R

/-- The value of an operand, what was read for it, and whether its awaiter was awaited. -/
structure Outcome (X R : Type) where
  operand : Nat
  value : R
  read : Held X R
  awaited : Bool

namespace Group

variable (g : Group X R)

def evalOperand (i : Nat) (p : Promise X R) : Except Fault (Outcome X R × Promise X R) :=
  match p.aw.elems[i]? with
  | some (some h) =>
    match g.getAs i h with
    | some v => .ok (⟨i, v, h, false⟩, p)
    | none => .error .terminate
  | _ =>
    let t := p.awaitTransform (g.awaiter i)
    (t.1.awaitResume t.2.aw).map fun x => (⟨i, g.awaitResume x, .awaiter x, true⟩, t.2)

/-- The operands in the order in which the compiler evaluates them. -/
def eval : List Nat → Promise X R → Except Fault (List (Outcome X R))
  | [], _ => .ok []
  | i :: is, p => do
    let (o, p) ← g.evalOperand i p
    let os ← eval is p
    return o :: os

/-- The result that was supplied, or that of the operand's own awaiter. -/
def expected (rs : List R) (i : Nat) : Outcome X R :=
  match rs[i]? with
  | some r => ⟨i, r, .result r, false⟩
  | none => ⟨i, g.awaitResume (g.awaiter i), .awaiter (g.awaiter i), true⟩

/-- Where the expression is entered: behind `resize(m)`, or at its label in a coroutine that
was restored with some results. -/
inductive Entered (m : Nat) : List R → Promise X R → Prop where
  | resized (p : Promise X R) : Entered m [] { p with aw := p.aw.resize m }
  | restored (p : Promise X R) (ser : List UInt8) {rs : List R} : rs.length ≤ m →
      Entered m rs (restored p ser rs)

variable {g}

theorem Entered.elems {m : Nat} {rs : List R} {p : Promise X R} (h : Entered m rs p) :
    p.aw.elems = rs.map fun r => some (.result r) := by
  cases h with
  | resized p => rfl
  | restored p ser le => exact restored_elems p ser rs

theorem evalOperand_await {i : Nat} {p : Promise X R} (absent : p.aw.elems[i]? = none) :
    g.evalOperand i p = .ok (⟨i, g.awaitResume (g.awaiter i), .awaiter (g.awaiter i), true⟩,
      (p.awaitTransform (g.awaiter i)).2) := by
  simp only [evalOperand, absent, Promise.awaitTransform_resume, Except.map]

theorem transform_occupied {p : Promise X R} (occupied : p.aw.elems ≠ []) (x : X) :
    (p.awaitTransform x).2 = p := by
  simp [Promise.awaitTransform, occupied]

/-- While `aw` is occupied, the awaits leave it as it is. -/
theorem evalOperand_occupied {i : Nat} {p p' : Promise X R} {o : Outcome X R}
    (occupied : p.aw.elems ≠ []) (h : g.evalOperand i p = .ok (o, p')) : p' = p := by
  unfold evalOperand at h
  split at h
  · split at h
    · cases h
      rfl
    · cases h
  · simp only [Promise.awaitTransform_resume, Except.map] at h
    cases h
    exact transform_occupied occupied _

theorem eval_cons {i : Nat} {is : List Nat} {p p' : Promise X R} {o : Outcome X R}
    (h : g.evalOperand i p = .ok (o, p')) : g.eval (i :: is) p = (g.eval is p').map (o :: ·) := by
  simp only [eval, h, bind, Except.bind]
  cases g.eval is p' with
  | error f => rfl
  | ok os => rfl

theorem eval_matching (rs : List R) {p : Promise X R} {is : List Nat}
    (each : ∀ i ∈ is, g.evalOperand i p = .ok (g.expected rs i, p)) :
    g.eval is p = .ok (is.map (g.expected rs)) := by
  induction is with
  | nil => rfl
  | cons i is ih =>
    obtain ⟨first, later⟩ := List.forall_mem_cons.mp each
    rw [eval_cons first, ih later]
    rfl

/-- An operand that finds an awaiter at its index does not await. -/
theorem eval_mistaken {p : Promise X R} {x : X} (alone : p.aw.elems = [some (.awaiter x)])
    {is : List Nat} (mem : 0 ∈ is) {os : List (Outcome X R)} (h : g.eval is p = .ok os) :
    ∃ o ∈ os, o.operand = 0 ∧ o.awaited = false := by
  induction is generalizing os with
  | nil => cases mem
  | cons i is ih =>
    have ne : p.aw.elems ≠ [] := by simp [alone]
    cases e : g.evalOperand i p with
    | error f => simp [eval, e, bind, Except.bind] at h
    | ok t =>
      obtain ⟨o, p'⟩ := t
      have same := evalOperand_occupied ne e
      subst same
      rw [eval_cons e] at h
      cases e' : g.eval is p' with
      | error f => simp [e', Except.map] at h
      | ok os' =>
        rw [e'] at h
        cases h
        rcases List.mem_cons.mp mem with rfl | later
        · refine ⟨o, List.mem_cons_self, ?_⟩
          simp only [evalOperand, alone, List.getElem?_cons_zero] at e
          split at e
          · cases e
            exact ⟨rfl, rfl⟩
          · cases e
        · obtain ⟨o', mem', zero, unawaited⟩ := ih later e'
          exact ⟨o', List.mem_cons_of_mem _ mem', zero, unawaited⟩

end Group

open Valor.Group in
/-- The operands of a group get their own results exactly when some result was supplied or the
compiler begins with operand 0. -/
theorem group_iff {g : Group X R} {m : Nat} (pos : 1 ≤ m) {rs : List R} {p : Promise X R}
    (entered : Entered m rs p) (typed : ∀ i r, rs[i]? = some r → g.getAs i (.result r) = some r)
    {order : List Nat} (perm : order.Perm (List.range m)) :
    g.eval order p = .ok (order.map (g.expected rs)) ↔ rs ≠ [] ∨ order.head? = some 0 := by
  have elems := entered.elems
  have zero : 0 ∈ order := perm.mem_iff.mpr (List.mem_range.mpr pos)
  by_cases none : rs = []
  · subst none
    obtain ⟨i, is, rfl⟩ := List.exists_cons_of_ne_nil (List.ne_nil_of_mem zero)
    have absent : p.aw.elems[i]? = Option.none := by simp [elems]
    have first := evalOperand_await (g := g) absent
    have occupied : (p.awaitTransform (g.awaiter i)).2.aw.elems = [some (.awaiter (g.awaiter i))] := by
      have empty : p.aw.elems = [] := elems
      simp [Promise.awaitTransform, empty]
    rw [eval_cons first]
    constructor
    · intro good
      refine .inr (congrArg some ?_)
      by_contra later
      have mem : 0 ∈ is := (List.mem_cons.mp zero).resolve_left (Ne.symm later)
      cases e : g.eval is (p.awaitTransform (g.awaiter i)).2 with
      | error f => simp [e, Except.map] at good
      | ok os =>
        obtain ⟨o, mem', zero', unawaited⟩ := eval_mistaken occupied mem e
        simp only [e, Except.map, List.map_cons, Except.ok.injEq, List.cons.injEq] at good
        rw [good.2] at mem'
        obtain ⟨j, _, rfl⟩ := List.mem_map.mp mem'
        simp [expected] at unawaited
    · intro start
      have start := (start.resolve_left (· rfl))
      cases start
      have distinct : (0 :: is).Nodup := perm.nodup_iff.mpr List.nodup_range
      have ne : (p.awaitTransform (g.awaiter 0)).2.aw.elems ≠ [] := by simp [occupied]
      rw [eval_matching []]
      · rfl
      · intro j mem
        have other : j ≠ 0 := fun h => (List.nodup_cons.mp distinct).1 (h ▸ mem)
        have absent' : (p.awaitTransform (g.awaiter 0)).2.aw.elems[j]? = Option.none := by
          obtain ⟨j, rfl⟩ := Nat.exists_eq_succ_of_ne_zero other
          simp [occupied]
        rw [evalOperand_await absent', transform_occupied ne]
        rfl
  · refine iff_of_true ?_ (.inl none)
    have occupied : p.aw.elems ≠ [] := by simpa [elems] using none
    refine eval_matching rs fun i _ => ?_
    cases given : rs[i]? with
    | none =>
      have absent : p.aw.elems[i]? = Option.none := by simp [elems, given]
      rw [evalOperand_await absent, transform_occupied occupied, expected, given]
    | some r =>
      have present : p.aw.elems[i]? = some (some (.result r)) := by simp [elems, given]
      simp only [evalOperand, present, typed i r given, expected, given]

/-- `co_await remote_op{46} + co_await remote_op{13}`. -/
def sum : Group UInt32 UInt32 where
  awaiter i := if i = 0 then 46 else 13
  getAs
    | _, .result r => some r
    | _, .awaiter _ => none
  awaitResume := (· + 1)

/-- Restored with the first result, the operands may be evaluated from right to left. -/
theorem sum_restored : sum.eval [1, 0] (restored .initial [0] [29]) =
    .ok [⟨1, 14, .awaiter 13, true⟩, ⟨0, 29, .result 29, false⟩] :=
  (group_iff (m := 2) (by decide) (.restored .initial [0] (by decide)) (fun _ _ _ => rfl)
    (List.Perm.swap 0 1 [])).mpr (.inl (List.cons_ne_nil _ _))

/-- From the start, the left operand then finds the awaiter of the right one. -/
theorem sum_right_to_left : sum.eval [1, 0] ⟨[], .resize .empty 2⟩ ≠
    .ok ([1, 0].map (sum.expected [])) := by
  have thrown : sum.eval [1, 0] ⟨[], .resize .empty 2⟩ = .error .terminate := rfl
  rw [thrown]
  nofun

end Valor
