import Valor.Runtime.Promise

/-! What `await_transform` makes of an awaiter. `ret` forwards the three operations to the
object in its storage, through an `any_cast` whose type tells whether it copies the object. -/
namespace Valor

variable {S B R Q : Type}

/-- A type of awaiters with state `S`. `movedFrom` is what a move leaves behind. -/
structure Awaiter (S B R : Type) where
  awaitReady : S → Bool × S
  awaitSuspend : S → B × S
  awaitResume : S → R × S
  movedFrom : S → S

structure Answered (B R : Type) where
  ready : Bool
  suspend : Option B
  resume : R

/-- `co_await` on an object in the storage `T`: unless it is ready, it suspends. -/
def coAwait {T : Type} (ready : T → Except Fault (Bool × T)) (suspend : T → Except Fault (B × T))
    (resume : T → Except Fault (R × T)) (t : T) : Except Fault (Answered B R × T) := do
  let (yes, t) ← ready t
  if yes then
    let (r, t) ← resume t
    return (⟨yes, none, r⟩, t)
  else
    let (b, t) ← suspend t
    let (r, t) ← resume t
    return (⟨yes, some b, r⟩, t)

theorem coAwait_ok {T : Type} {ready : T → Except Fault (Bool × T)}
    {suspend : T → Except Fault (B × T)} {resume : T → Except Fault (R × T)} {t u v w z : T}
    {yes : Bool} {b : B} {r r' : R} (hr : ready t = .ok (yes, u)) (hb : suspend u = .ok (b, v))
    (now : resume u = .ok (r, w)) (later : resume v = .ok (r', z)) :
    coAwait ready suspend resume t =
      .ok (if yes then (⟨yes, none, r⟩, w) else (⟨yes, some b, r'⟩, z)) := by
  unfold coAwait
  rw [hr]
  cases yes with
  | true => simp only [bind, Except.bind, now, if_true]; rfl
  | false => simp only [bind, Except.bind, hb, later, Bool.false_eq_true, if_false]; rfl

namespace Awaiter

/-- The operations applied to the object itself. -/
def await (a : Awaiter S B R) (s : S) : Answered B R × S :=
  let t := a.awaitReady s
  if t.1 then
    let r := a.awaitResume t.2
    (⟨t.1, none, r.1⟩, r.2)
  else
    let b := a.awaitSuspend t.2
    let r := a.awaitResume b.2
    (⟨t.1, some b.1, r.1⟩, r.2)

end Awaiter

/-- How the operand is deduced as `T&&`: `T` is a type or a reference. -/
inductive Category where
  | rvalue | lvalue

/-- Where `ret` keeps the awaiter: in itself or in the `aw` of the promise. -/
abbrev Storage (S Q : Type) := Stored S Q × AnyVec S Q

def Storage.set (t : Storage S Q) (s : S) : Storage S Q :=
  match t.1 with
  | .own _ => (.own (some (.awaiter s)), t.2)
  | .ref _ i => (t.1, { t.2 with elems := t.2.elems.set i (some (.awaiter s)) })

/-- `std::any_cast<T>(get()).op()`: for a type `T` the cast makes a copy, which is gone after
the operation. -/
def Storage.forward {A : Type} (cat : Category) (op : S → A × S) (t : Storage S Q) :
    Except Fault (A × Storage S Q) :=
  (t.1.awaitResume t.2).map fun s =>
    match cat with
    | .rvalue => ((op s).1, t)
    | .lvalue => ((op s).1, t.set (op s).2)

/-- `co_await x`: the answers, the promise and what is left in `x`. -/
def Promise.coAwait (a : Awaiter S B R) (cat : Category) (p : Promise S Q) (x : S) :
    Except Fault (Answered B R × Promise S Q × S) :=
  let t := p.awaitTransform x
  (Valor.coAwait (Storage.forward cat a.awaitReady) (Storage.forward cat a.awaitSuspend)
    (Storage.forward cat a.awaitResume) (t.1, t.2.aw)).map fun r =>
      (r.1, { t.2 with aw := r.2.2 }, a.movedFrom x)

namespace Storage

/-- The awaiter that `get` finds. -/
def Holds (t : Storage S Q) (s : S) : Prop := t.1.awaitResume t.2 = .ok s

variable {t : Storage S Q} {s : S} {A : Type}

theorem holds_transformed (p : Promise S Q) (s : S) :
    Holds ((p.awaitTransform s).1, (p.awaitTransform s).2.aw) s :=
  Promise.awaitTransform_resume p s

theorem Holds.set (h : t.Holds s) (s' : S) : (t.set s').Holds s' := by
  obtain ⟨a, aw⟩ := t
  cases a with
  | own => rfl
  | ref epoch i =>
    simp only [Holds, Stored.awaitResume, Stored.get] at h
    by_cases same : epoch = aw.epoch
    · have inside : i < aw.elems.length := by
        by_contra outside
        simp [same, List.getElem?_eq_none (Nat.le_of_not_lt outside)] at h
      simp [Storage.set, Holds, Stored.awaitResume, Stored.get, same, inside]
    · simp [same] at h

theorem Holds.forward_rvalue (h : t.Holds s) (op : S → A × S) :
    t.forward .rvalue op = .ok ((op s).1, t) := by
  rw [Holds] at h
  simp only [forward, h, Except.map]

theorem Holds.forward_lvalue (h : t.Holds s) (op : S → A × S) :
    t.forward .lvalue op = .ok ((op s).1, t.set (op s).2) := by
  rw [Holds] at h
  simp only [forward, h, Except.map]

end Storage

namespace Awaiter

variable (a : Awaiter S B R) {s : S}

/-- What an operation does to the object does not show in the answers of the later ones. -/
def Insensitive (s : S) : Prop :=
  let ready := a.awaitReady s
  let suspend := a.awaitSuspend ready.2
  if ready.1 then (a.awaitResume s).1 = (a.awaitResume ready.2).1
  else (a.awaitSuspend s).1 = suspend.1 ∧ (a.awaitResume s).1 = (a.awaitResume suspend.2).1

/-- The object after some awaits. -/
def after (s : S) (n : Nat) : S := (fun s => (a.await s).2)^[n] s

/-- Of some awaits of the named object `x`, which find the promises `ps`, each finds it in the
state `s` in which the one before has left it and gives its answers. -/
def Follows : List (Promise S Q) → S → S → Prop
  | [], _, _ => True
  | p :: ps, x, s => x = s ∧ ∃ p' x', p.coAwait a .lvalue x = .ok ((a.await s).1, p', x') ∧
    Follows ps x' (a.await s).2

/-- A temporary, or a named object that is awaited once for every promise. -/
inductive Operand (S Q : Type) where
  | temporary (s : S) (p : Promise S Q)
  | named (s : S) (ps : List (Promise S Q))

/-- The answers are those of the operations on the object itself. -/
def Transparent : Operand S Q → Prop
  | .temporary s p => ∃ p' x', p.coAwait a .rvalue s = .ok ((a.await s).1, p', x')
  | .named s ps => a.Follows ps s s

/-- Either the operations can as well be applied to copies, or an object that was moved from
is what the await would have left. -/
def Unaffected : Operand S Q → Prop
  | .temporary s _ => a.Insensitive s
  | .named s ps => ∀ n, n + 1 < ps.length → a.movedFrom (a.after s n) = a.after s (n + 1)

variable {a}

theorem coAwait_rvalue (p : Promise S Q) (s : S) : ∃ p', p.coAwait a .rvalue s =
    .ok (if (a.awaitReady s).1 then ⟨(a.awaitReady s).1, none, (a.awaitResume s).1⟩
      else ⟨(a.awaitReady s).1, some (a.awaitSuspend s).1, (a.awaitResume s).1⟩,
      p', a.movedFrom s) := by
  have holds := Storage.holds_transformed p s
  have resume := holds.forward_rvalue a.awaitResume
  refine ⟨(p.awaitTransform s).2, ?_⟩
  rw [Promise.coAwait, coAwait_ok (holds.forward_rvalue _) (holds.forward_rvalue _) resume resume]
  split <;> rfl

theorem coAwait_lvalue (p : Promise S Q) (s : S) :
    ∃ p', p.coAwait a .lvalue s = .ok ((a.await s).1, p', a.movedFrom s) := by
  have holds := Storage.holds_transformed p s
  have ready := holds.set (a.awaitReady s).2
  have suspended := ready.set (a.awaitSuspend (a.awaitReady s).2).2
  rw [Promise.coAwait, coAwait_ok (holds.forward_lvalue _) (ready.forward_lvalue _)
    (ready.forward_lvalue _) (suspended.forward_lvalue _)]
  cases yes : (a.awaitReady s).1 with
  | true =>
    simp only [await, yes, if_true]
    exact ⟨_, rfl⟩
  | false =>
    simp only [await, yes, Bool.false_eq_true, if_false]
    exact ⟨_, rfl⟩

theorem after_succ (s : S) (n : Nat) : a.after s (n + 1) = a.after (a.await s).2 n :=
  Function.iterate_succ_apply _ n s

theorem follows_iff (ps : List (Promise S Q)) (s : S) : a.Follows ps s s ↔
    ∀ n, n + 1 < ps.length → a.movedFrom (a.after s n) = a.after s (n + 1) := by
  induction ps generalizing s with
  | nil => simp [Follows]
  | cons p ps ih =>
    obtain ⟨p', awaited⟩ := coAwait_lvalue (a := a) p s
    have first : a.Follows (p :: ps) s s ↔ a.Follows ps (a.movedFrom s) (a.await s).2 := by
      simp only [Follows, awaited]
      constructor
      · rintro ⟨_, _, _, same, rest⟩
        cases same
        exact rest
      · exact fun rest => ⟨trivial, _, _, rfl, rest⟩
    rw [first]
    cases ps with
    | nil => simp [Follows]
    | cons q qs =>
      constructor
      · intro rest n lt
        have same : a.movedFrom s = (a.await s).2 := rest.1
        rw [same] at rest
        cases n with
        | zero => exact same
        | succ n =>
          rw [after_succ, after_succ]
          exact (ih _).mp rest n (Nat.lt_of_succ_lt_succ lt)
      · intro keep
        have same : a.movedFrom s = (a.await s).2 := keep 0 (by simp)
        rw [same]
        refine (ih _).mpr fun n lt => ?_
        have later := keep (n + 1) (Nat.succ_lt_succ lt)
        rwa [after_succ, after_succ] at later

end Awaiter

/-- `await_transform` is transparent to an awaiter exactly when its operations may work on
copies and, if it is awaited again, a moved-from object is as good as one that was awaited. -/
theorem await_transparent_iff (a : Awaiter S B R) (x : Awaiter.Operand S Q) :
    a.Transparent x ↔ a.Unaffected x := by
  cases x with
  | named s ps => exact Awaiter.follows_iff ps s
  | temporary s p =>
    obtain ⟨p', awaited⟩ := Awaiter.coAwait_rvalue (a := a) p s
    simp only [Awaiter.Transparent, Awaiter.Unaffected, Awaiter.Insensitive, awaited, Awaiter.await]
    split
    · simp
    · simp

/-- `remote_op`, which works on its `i` when it is resumed. -/
def remoteOp (work : UInt32 → UInt32) : Awaiter UInt32 Unit UInt32 where
  awaitReady i := (false, i)
  awaitSuspend i := ((), i)
  awaitResume i := (work i, work i)
  movedFrom i := i

/-- `remote_op op{13}; co_await op; co_await op;`: the second await starts from 13 again. -/
theorem await_not_transparent : ¬ (remoteOp (· + 1)).Transparent
    (.named 13 [(Promise.initial : Promise UInt32 UInt32), .initial]) := by
  intro transparent
  have kept := (Awaiter.follows_iff _ _).mp transparent 0 (by decide)
  exact absurd kept (by decide)

end Valor
