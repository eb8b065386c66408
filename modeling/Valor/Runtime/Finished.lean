import Mathlib.Logic.Function.Iterate
import Valor.Lib.Runs
import Valor.Runtime.Machine

/-! What can be done with a `ser_ctx` of a type other than `void` once its coroutine has
returned. `moved` is what a move from a value of that type leaves in its place. -/
namespace Valor.Finished

open Runs

variable {X R T : Type}

/-- With the member of `promise_base`. -/
structure PromiseType (X R T : Type) extends Promise X R where
  retval : T

namespace PromiseType

def returnValue (p : PromiseType X R T) (v : T) : PromiseType X R T := { p with retval := v }

def deserialize (p : PromiseType X R T) (s : List UInt8) : PromiseType X R T :=
  { p with toPromise := Valor.deserialize p.toPromise s }

def setAwRet (p : PromiseType X R T) (r : R) : PromiseType X R T :=
  { p with toPromise := Valor.setAwRet p.toPromise r }

end PromiseType

/-- The body up to its next suspension, or to the `co_return` of a value. -/
abbrev Body (X R T : Type) := PromiseType X R T → PromiseType X R T × Option T

/-- `resumed` counts how often the body has run. -/
structure Frame (X R T : Type) where
  promise : PromiseType X R T
  done : Bool
  resumed : Nat

def Frame.resume (fr : Frame X R T) (body : Body X R T) : Frame X R T :=
  match body fr.promise with
  | (p, none) => { fr with promise := p, resumed := fr.resumed + 1 }
  | (p, some v) => ⟨p.returnValue v, true, fr.resumed + 1⟩

structure SerCtx (X R T : Type) where
  händel : Option (Frame X R T)

inductive Op (X R T : Type) where
  | call (body : Body X R T)
  | test
  | deserialize (s : List UInt8)
  | setAwRet (r : R)
  | get

inductive Reply (T : Type) where
  | truth (b : Bool)
  | value (v : T)

/-- The object, and what the operations on it have returned. -/
structure World (X R T : Type) where
  ctx : SerCtx X R T
  replies : List (Reply T)

namespace SerCtx

def call (c : SerCtx X R T) (body : Body X R T) : SerCtx X R T :=
  ⟨c.händel.map fun fr => if fr.done then fr else fr.resume body⟩

def truth (c : SerCtx X R T) : Bool := c.händel.any fun fr => !fr.done

def updatePromise (c : SerCtx X R T) (g : PromiseType X R T → PromiseType X R T) : SerCtx X R T :=
  ⟨c.händel.map fun fr => { fr with promise := g fr.promise }⟩

/-- The result is made from what the promise holds by a move. -/
def get [Inhabited T] (ndebug : Bool) (moved : T → T) (c : SerCtx X R T) :
    Except Fault (SerCtx X R T × T) :=
  match c.händel with
  | none => if ndebug then .ok (c, default) else .error .undefined
  | some fr =>
    if !ndebug && !fr.done then .error .abort
    else .ok (c.updatePromise fun p => { p with retval := moved p.retval }, fr.promise.retval)

end SerCtx

def step [Inhabited T] (ndebug : Bool) (moved : T → T) :
    Op X R T → World X R T → Except Fault (World X R T)
  | .call body, w => .ok { w with ctx := w.ctx.call body }
  | .test, w => .ok { w with replies := w.replies ++ [.truth w.ctx.truth] }
  | .deserialize s, w => .ok { w with ctx := w.ctx.updatePromise (·.deserialize s) }
  | .setAwRet r, w => .ok { w with ctx := w.ctx.updatePromise (·.setAwRet r) }
  | .get, w => (w.ctx.get ndebug moved).map fun t => ⟨t.1, w.replies ++ [.value t.2]⟩

/-- The body of the object's coroutine has just run into `co_return v`. -/
def Ended (c : SerCtx X R T) (v : T) : Prop :=
  ∃ fr body, fr.done = false ∧ (body fr.promise).2 = some v ∧ c = (⟨some fr⟩ : SerCtx X R T).call body

def Reply.Final (v : T) : Reply T → Prop
  | .truth b => b = false
  | .value w => w = v

/-- The body has run as often as before, and every reply is that of a coroutine that has
returned `v`. -/
def Absorbed (c : SerCtx X R T) (v : T) (w : World X R T) : Prop :=
  w.ctx.händel.map Frame.resumed = c.händel.map Frame.resumed ∧ ∀ r ∈ w.replies, r.Final v

def gets : List (Op X R T) → Nat
  | [] => 0
  | .get :: ops => gets ops + 1
  | .call _ :: ops | .test :: ops | .deserialize _ :: ops | .setAwRet _ :: ops => gets ops

/-! ## Finished frames -/

/-- A frame that has returned; its return value may have been moved away. -/
def Rests (c : SerCtx X R T) (resumed : Nat) (held : T) : Prop :=
  ∃ p, c.händel = some ⟨p, true, resumed⟩ ∧ p.retval = held

variable {c : SerCtx X R T} {resumed : Nat} {held v : T} {ndebug : Bool} {moved : T → T}
  {replies : List (Reply T)}

theorem Ended.rests (h : Ended c v) : ∃ resumed, Rests c resumed v := by
  obtain ⟨fr, body, running, returned, rfl⟩ := h
  have step : fr.resume body = ⟨(body fr.promise).1.returnValue v, true, fr.resumed + 1⟩ := by
    unfold Frame.resume
    cases run : body fr.promise with
    | mk p result =>
      rw [run] at returned
      cases returned
      rfl
  refine ⟨fr.resumed + 1, (body fr.promise).1.returnValue v, ?_, rfl⟩
  simp [SerCtx.call, running, step]

theorem Rests.call (h : Rests c resumed held) (body : Body X R T) : c.call body = c := by
  obtain ⟨p, frame, _⟩ := h
  cases c
  cases frame
  rfl

theorem Rests.truth (h : Rests c resumed held) : c.truth = false := by
  obtain ⟨p, frame, _⟩ := h
  simp [SerCtx.truth, frame]

theorem Rests.updatePromise (h : Rests c resumed held) {g : PromiseType X R T → PromiseType X R T}
    {f : T → T} (retval : ∀ p, (g p).retval = f p.retval) :
    Rests (c.updatePromise g) resumed (f held) := by
  obtain ⟨p, frame, holds⟩ := h
  refine ⟨g p, ?_, ?_⟩
  · simp [SerCtx.updatePromise, frame]
  · rw [retval, holds]

theorem Rests.get [Inhabited T] (h : Rests c resumed held) (ndebug : Bool) (moved : T → T) :
    ∃ c', c.get ndebug moved = .ok (c', held) ∧ Rests c' resumed (moved held) := by
  refine ⟨c.updatePromise fun p => { p with retval := moved p.retval }, ?_,
    h.updatePromise fun _ => rfl⟩
  obtain ⟨p, frame, rfl⟩ := h
  unfold SerCtx.get
  simp [frame]

theorem Rests.absorbed_iff (h : Rests c resumed held) (orig : SerCtx X R T)
    (same : orig.händel.map Frame.resumed = some resumed) :
    Absorbed orig v ⟨c, replies⟩ ↔ ∀ r ∈ replies, r.Final v := by
  obtain ⟨p, frame, _⟩ := h
  simp [Absorbed, frame, same]

theorem safely_same [Inhabited T] {orig : SerCtx X R T} {op : Op X R T} {ops : List (Op X R T)}
    {w w' : World X R T} (now : Absorbed orig v w) (run : step ndebug moved op w = .ok w') :
    Safely (step ndebug moved) (Absorbed orig v) (op :: ops) w ↔
      Safely (step ndebug moved) (Absorbed orig v) ops w' := by
  constructor
  · rintro ⟨_, w'', run', rest⟩
    cases Except.ok.inj (run.symm.trans run')
    exact rest
  · intro rest
    exact ⟨now, w', run, rest⟩

theorem final_snoc (last : Reply T) (good : ∀ r ∈ replies, r.Final v) (final : last.Final v) :
    ∀ r ∈ replies ++ [last], r.Final v :=
  List.forall_mem_append.mpr ⟨good, List.forall_mem_singleton.mpr final⟩

/-- The values that the calls of `get` return are what is left after each move. -/
theorem safely_iff_iterate [Inhabited T] (ndebug : Bool) (moved : T → T) {orig : SerCtx X R T} (h : Rests c resumed held)
    (same : orig.händel.map Frame.resumed = some resumed) (good : ∀ r ∈ replies, r.Final v)
    (ops : List (Op X R T)) :
    Safely (step ndebug moved) (Absorbed orig v) ops ⟨c, replies⟩ ↔
      ∀ i < gets ops, moved^[i] held = v := by
  induction ops generalizing c held replies with
  | nil =>
    simp only [Safely, gets, Nat.not_lt_zero, false_implies, implies_true, iff_true]
    exact (h.absorbed_iff orig same).mpr good
  | cons op ops ih =>
    have now := (h.absorbed_iff orig same).mpr good
    cases op with
    | call body =>
      refine (safely_same now rfl).trans ?_
      simp only [h.call body, gets]
      exact ih h good
    | test =>
      exact (safely_same now rfl).trans (ih h (final_snoc (.truth c.truth) good h.truth))
    | deserialize s =>
      have rests : Rests (c.updatePromise (·.deserialize s)) resumed held :=
        h.updatePromise (f := id) fun _ => rfl
      exact (safely_same now rfl).trans (ih rests good)
    | setAwRet r =>
      have rests : Rests (c.updatePromise (·.setAwRet r)) resumed held :=
        h.updatePromise (f := id) fun _ => rfl
      exact (safely_same now rfl).trans (ih rests good)
    | get =>
      obtain ⟨c', got, rests⟩ := h.get ndebug moved
      have run : step ndebug moved .get ⟨c, replies⟩ = .ok ⟨c', replies ++ [.value held]⟩ := by
        simp only [step, got, Except.map]
      refine (safely_same now run).trans ?_
      constructor
      · intro rest
        have final := ((rests.absorbed_iff orig same).mp rest.now) (.value held) (by simp)
        have later := (ih rests (final_snoc _ good final)).mp rest
        intro i lt
        cases i with
        | zero => exact final
        | succ i => exact later i (Nat.lt_of_succ_lt_succ lt)
      · intro all
        have first : held = v := all 0 (Nat.succ_pos _)
        apply (ih rests (final_snoc (.value held) good first)).mpr
        intro i lt
        exact all (i + 1) (Nat.succ_lt_succ lt)

/-- A value that the first move leaves alone stays for ever. -/
theorem iterate_iff (moved : T → T) (v : T) (n : Nat) :
    (∀ i < n, moved^[i] v = v) ↔ n ≤ 1 ∨ moved v = v := by
  constructor
  · intro all
    by_cases few : n ≤ 1
    · exact .inl few
    · exact .inr (all 1 (Nat.lt_of_not_le few))
  · rintro (few | fixed) i lt
    · have zero : i = 0 := by omega
      subst zero
      rfl
    · exact Function.iterate_fixed fixed i

/-- All is as it should be until the value is asked for again after it was moved away. -/
theorem finished_absorbing_iff [Inhabited T] (ndebug : Bool) (moved : T → T) {c : SerCtx X R T}
    {v : T} (ended : Ended c v) (ops : List (Op X R T)) :
    Safely (step ndebug moved) (Absorbed c v) ops ⟨c, []⟩ ↔ gets ops ≤ 1 ∨ moved v = v := by
  obtain ⟨resumed, rests⟩ := ended.rests
  have same : c.händel.map Frame.resumed = some resumed := by
    obtain ⟨p, frame, _⟩ := rests
    simp [frame]
  exact (safely_iff_iterate ndebug moved rests same (by simp) ops).trans (iterate_iff moved v (gets ops))

/-! ## Strings and numbers -/

/-- A coroutine that returns `v` at once. -/
def returning (v : T) : Body X R T := fun p => (p, some v)

def fresh (v : T) : SerCtx X R T := ⟨some ⟨⟨.initial, v⟩, false, 0⟩⟩

theorem returning_ended (start v : T) :
    Ended ((fresh start : SerCtx X R T).call (returning v)) v :=
  ⟨_, returning v, rfl, rfl, rfl⟩

/-- A move from a number leaves it. -/
theorem number_absorbing : Safely (step false id)
    (Absorbed ((fresh 0 : SerCtx Unit Nat Nat).call (returning 7)) 7)
    [.get, .call (returning 8), .test, .setAwRet 3, .get]
    ⟨(fresh 0 : SerCtx Unit Nat Nat).call (returning 7), []⟩ :=
  (finished_absorbing_iff false id (returning_ended 0 7) _).mpr (.inr rfl)

/-- A move from a string leaves the empty string. -/
theorem not_finished_absorbing : ¬ ∀ (moved : String → String) (c : SerCtx Unit Unit String)
    (v : String) (ops : List (Op Unit Unit String)), Ended c v →
      Safely (step false moved) (Absorbed c v) ops ⟨c, []⟩ := by
  intro claim
  have ended : Ended ((fresh "" : SerCtx Unit Unit String).call (returning "done")) "done" :=
    returning_ended "" "done"
  have absorbed := claim (fun _ => "") _ "done" [.get, .get] ended
  obtain ⟨resumed, rests⟩ := ended.rests
  have same : Option.map Frame.resumed
      ((fresh "" : SerCtx Unit Unit String).call (returning "done")).händel = some resumed := by
    obtain ⟨p, frame, _⟩ := rests
    simp [frame]
  have all := (safely_iff_iterate _ _ rests same (by simp) _).mp absorbed
  exact absurd (all 1 (by decide)) (by decide)

end Valor.Finished
