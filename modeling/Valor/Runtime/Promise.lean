import Mathlib.Algebra.Group.Nat.Defs
import Mathlib.Data.List.Forall2
import Valor.Lib.Flow

/-! The promise of a `ser_ctx` coroutine: the serialized state and the vector `aw`.
The serialization library is a parameter; only the calls made by `valor.h` appear. -/
namespace Valor

open Flow

variable {Var : Type} {Val : Var → Type} {View X R : Type}

/-- The values of `m` on the listed variables, those of `l` elsewhere. -/
def overlay [DecidableEq Var] (xs : List Var) (m l : Store Val) : Store Val :=
  fun x => if x ∈ xs then m x else l x

theorem overlay_agree [DecidableEq Var] {xs : List Var} {ys : Set Var} (l l' : Store Val)
    (sub : ys ⊆ {x | x ∈ xs}) : Agree ys l (overlay xs l l') := by
  intro x hx
  have listed : x ∈ xs := sub hx
  simp [overlay, listed]

/-- Why a coroutine stops running without returning: an uncaught exception, a failed
assertion, or behaviour the language leaves undefined. -/
inductive Fault where
  | terminate | abort | undefined
  deriving DecidableEq, Repr

/-- The calls `valor.h` makes into ufser. A `View` is an `any_view`; `none` is a thrown
error. `serialize n vs` is the encoding of the tuple of the unsigned `n` and of `vs`. -/
structure Ufser (Val : Var → Type) (View : Type) where
  serialize : Nat → List (Σ x, Val x) → List UInt8
  view : List UInt8 → Option View
  isStructured : View → Bool
  content : View → List View
  getUnsigned : View → Option Nat
  get : (x : Var) → View → Option (Val x)

/-- A tuple's elements come back in order; a tuple of one element is the bare element. -/
structure Ufser.RoundTrips (u : Ufser Val View) : Prop where
  nonempty : ∀ n vs, u.serialize n vs ≠ []
  bare : ∀ n, n < 2 ^ 32 → ∃ a, u.view (u.serialize n []) = some a ∧
    u.isStructured a = false ∧ u.getUnsigned a = some n
  tuple : ∀ n vs, n < 2 ^ 32 → vs ≠ [] → ∃ a e es, u.view (u.serialize n vs) = some a ∧
    u.isStructured a = true ∧ u.content a = e :: es ∧ u.getUnsigned e = some n ∧
    List.Forall₂ (fun v w => u.get v.1 w = some v.2) vs es

/-! The assumption is met, for locals of type `int`, by tuples of four-byte numbers. -/

def be32 (n : Nat) : List UInt8 := [n / 2 ^ 24, n / 2 ^ 16, n / 2 ^ 8, n].map UInt8.ofNat

def un32 : List UInt8 → Option Nat
  | [a, b, c, d] => some (a.toNat * 2 ^ 24 + b.toNat * 2 ^ 16 + c.toNat * 2 ^ 8 + d.toNat)
  | _ => none

def words : List UInt8 → List (List UInt8)
  | a :: b :: c :: d :: rest => [a, b, c, d] :: words rest
  | _ => []

def wordUfser : Ufser (fun _ : Var => UInt32) (List UInt8) where
  serialize n vs := be32 n ++ vs.flatMap fun v => be32 v.2.toNat
  view s := if s.length < 4 then none else some s
  isStructured s := 4 < s.length
  content s := if 4 < s.length then words s else []
  getUnsigned := un32
  get _ s := (un32 s).map UInt32.ofNat

theorem un32_be32 {n : Nat} (h : n < 2 ^ 32) : un32 (be32 n) = some n := by
  simp only [be32, un32, List.map_cons, List.map_nil, UInt8.toNat_ofNat', Option.some.injEq]
  omega

theorem wordUfser_roundTrips : Ufser.RoundTrips (@wordUfser Var) where
  nonempty n vs := by simp [wordUfser, be32]
  bare n h := by
    refine ⟨be32 n, ?_, ?_, un32_be32 h⟩ <;> simp [wordUfser, be32]
  tuple n vs h hvs := by
    obtain ⟨v, vs, rfl⟩ := List.exists_cons_of_ne_nil hvs
    refine ⟨_, be32 n, words ((v :: vs).flatMap fun v => be32 v.2.toNat), rfl, ?_, ?_, ?_, ?_⟩
    · simp [wordUfser, be32]
    · simp [wordUfser, be32, words]
    · exact un32_be32 h
    · generalize v :: vs = vs
      induction vs with
      | nil => exact .nil
      | cons v vs ih =>
        refine .cons ?_ ih
        have small : v.2.toNat < 2 ^ 32 := v.2.toNat_lt
        exact (congrArg (Option.map UInt32.ofNat) (un32_be32 small)).trans (by simp)

/-- What a `std::any` of `aw` holds: an awaiter wrapped by `await_transform`, or a
result supplied through `set_aw_ret`. -/
inductive Held (X R : Type) where
  | awaiter (x : X)
  | result (r : R)

/-- `std::vector<std::any>`. A reference into it is good for one epoch: the storage
moves when an element is appended at full capacity, and `resize` drops the elements. -/
structure AnyVec (X R : Type) where
  elems : List (Option (Held X R))
  capacity : Nat
  epoch : Nat

namespace AnyVec

def empty : AnyVec X R := ⟨[], 0, 0⟩

def has (aw : AnyVec X R) (i : Nat) : Bool :=
  match aw.elems[i]? with
  | some (some _) => true
  | _ => false

/-- The cast throws on an awaiter and on an empty `any`. -/
def getAs (aw : AnyVec X R) (i : Nat) : Except Fault R :=
  match aw.elems[i]? with
  | some (some (.result r)) => .ok r
  | some _ => .error .terminate
  | none => .error .undefined

def put (aw : AnyVec X R) (a : Option (Held X R)) : AnyVec X R :=
  if aw.elems.length < aw.capacity then { aw with elems := aw.elems ++ [a] }
  else ⟨aw.elems ++ [a], max 1 (2 * aw.capacity), aw.epoch + 1⟩

def resize (aw : AnyVec X R) (n : Nat) : AnyVec X R :=
  ⟨[], max aw.capacity n, aw.epoch + 1⟩

@[simp] theorem put_elems (aw : AnyVec X R) (a : Option (Held X R)) :
    (aw.put a).elems = aw.elems ++ [a] := by
  unfold put
  split <;> rfl

theorem has_zero_of_nil {aw : AnyVec X R} (h : aw.elems = []) : aw.has 0 = false := by
  simp [has, h]

end AnyVec

/-- The storage of `await_transform`'s `ret`: an `any` of its own, or a reference into `aw`. -/
inductive Stored (X R : Type) where
  | own (a : Option (Held X R))
  | ref (epoch i : Nat)

/-- `ret::get()`; `none` is a dangling reference. -/
def Stored.get (a : Stored X R) (aw : AnyVec X R) : Option (Option (Held X R)) :=
  match a with
  | .own a => some a
  | .ref epoch i => if epoch = aw.epoch then aw.elems[i]? else none

/-- `ret::await_resume()` up to the awaiter it is forwarded to. -/
def Stored.awaitResume (a : Stored X R) (aw : AnyVec X R) : Except Fault X :=
  match a.get aw with
  | some (some (.awaiter x)) => .ok x
  | some _ => .error .terminate
  | none => .error .undefined

structure Promise (X R : Type) where
  state : List UInt8
  aw : AnyVec X R

namespace Promise

def initial : Promise X R := ⟨[], .empty⟩

/-- The first awaiter goes into `aw`; while `aw` is occupied an awaiter is kept aside. -/
def awaitTransform (p : Promise X R) (x : X) : Stored X R × Promise X R :=
  if p.aw.elems.isEmpty then
    let aw := p.aw.put (some (.awaiter x))
    (.ref aw.epoch p.aw.elems.length, { p with aw := aw })
  else (.own (some (.awaiter x)), p)

theorem awaitTransform_resume (p : Promise X R) (x : X) :
    (p.awaitTransform x).1.awaitResume (p.awaitTransform x).2.aw = .ok x := by
  unfold awaitTransform
  split
  · simp [Stored.awaitResume, Stored.get]
  · rfl

theorem awaitTransform_occupied (p : Promise X R) (x : X) :
    (p.awaitTransform x).2.aw.elems ≠ [] := by
  unfold awaitTransform
  split
  · simp
  · rename_i h
    simpa using h

@[simp] theorem awaitTransform_state (p : Promise X R) (x : X) :
    (p.awaitTransform x).2.state = p.state := by
  unfold awaitTransform
  split <;> rfl

/-- A stage number as `stage()` returns it: an `unsigned` narrowed to `uint16_t`. -/
def stageNumber (u : Ufser Val View) (a : View) : Except Fault Nat :=
  match u.getUnsigned a with
  | some n => .ok (n % 2 ^ 16)
  | none => .error .terminate

def stage (u : Ufser Val View) (p : Promise X R) : Except Fault Nat :=
  if p.state.isEmpty then .ok 0
  else match u.view p.state with
    | none => .error .terminate
    | some a =>
      if u.isStructured a then
        match u.content a with
        | [] => .error .undefined
        | e :: _ => stageNumber u e
      else stageNumber u a

/-- The locals as the tail of the saved tuple. -/
def values (l : Store Val) (xs : List Var) : List (Σ x, Val x) := xs.map fun x => ⟨x, l x⟩

def save (u : Ufser Val View) (p : Promise X R) (i : Nat) (xs : List Var) (l : Store Val) :
    Promise X R :=
  { p with state := u.serialize (i % 2 ^ 16) (values l xs) }

section load
variable [DecidableEq Var]

/-- The fold of `load` over its arguments; reading past the last element is undefined. -/
def assign (u : Ufser Val View) : List Var → List View → Store Val → Except Fault (Store Val)
  | [], _, l => .ok l
  | _ :: _, [], _ => .error .undefined
  | x :: xs, e :: es, l =>
    match u.get x e with
    | some v => assign u xs es (Function.update l x v)
    | none => .error .terminate

def load (u : Ufser Val View) (p : Promise X R) (xs : List Var) (l : Store Val) :
    Except Fault (Store Val) :=
  if p.aw.elems.isEmpty then .ok l
  else match u.view p.state with
    | none => .error .terminate
    | some a => assign u xs (u.content a).tail l

theorem assign_values (u : Ufser Val View) (m : Store Val) (xs : List Var) (es : List View)
    (l : Store Val) (h : List.Forall₂ (fun v w => u.get v.1 w = some v.2) (values m xs) es) :
    assign u xs es l = .ok (overlay xs m l) := by
  induction xs generalizing es l with
  | nil => exact congrArg Except.ok (by funext y; simp [overlay])
  | cons x xs ih =>
    cases h with
    | cons hx hxs =>
      simp only [assign, hx, ih _ _ hxs]
      congr 1
      funext y
      by_cases hy : y = x
      · subst hy; simp [overlay]
      · simp [overlay, hy]

end load

variable {u : Ufser Val View}

theorem stage_saved (rt : u.RoundTrips) {p : Promise X R} {n : Nat} {vs : List (Σ x, Val x)}
    (hn : n < 2 ^ 16) (h : p.state = u.serialize n vs) : p.stage u = .ok n := by
  have small : n < 2 ^ 32 := by omega
  have same : n % 2 ^ 16 = n := Nat.mod_eq_of_lt hn
  have full : p.state.isEmpty = false := by simp [h, rt.nonempty]
  by_cases hvs : vs = []
  · subst hvs
    obtain ⟨a, hv, hs, hg⟩ := rt.bare n small
    rw [← h] at hv
    simp only [stage, full, Bool.false_eq_true, if_false, hv, hs, stageNumber, hg, same]
  · obtain ⟨a, e, es, hv, hs, hc, hg, _⟩ := rt.tuple n vs small hvs
    rw [← h] at hv
    simp only [stage, full, Bool.false_eq_true, if_false, hv, hs, if_true, hc, stageNumber,
      hg, same]

theorem load_empty [DecidableEq Var] {p : Promise X R} (h : p.aw.elems = []) (xs : List Var)
    (l : Store Val) : p.load u xs l = .ok l := by
  simp [load, h]

theorem load_saved [DecidableEq Var] (rt : u.RoundTrips) {p : Promise X R} {n : Nat}
    {xs : List Var} {m : Store Val} (hn : n < 2 ^ 16)
    (h : p.state = u.serialize n (values m xs)) (occupied : p.aw.elems ≠ []) (l : Store Val) :
    p.load u xs l = .ok (overlay xs m l) := by
  have small : n < 2 ^ 32 := by omega
  have full : p.aw.elems.isEmpty = false := by simpa using occupied
  cases xs with
  | nil =>
    obtain ⟨a, hv, _⟩ := rt.bare n small
    have hv' : u.view p.state = some a := by rw [h]; exact hv
    simp only [load, full, Bool.false_eq_true, if_false, hv', assign]
    exact congrArg Except.ok (by funext y; simp [overlay])
  | cons x xs =>
    obtain ⟨a, e, es, hv, _, hc, _, hvs⟩ := rt.tuple n (values m (x :: xs)) small (by simp [values])
    rw [← h] at hv
    simp only [load, full, Bool.false_eq_true, if_false, hv, hc, List.tail_cons]
    exact assign_values u m (x :: xs) es l hvs

end Promise

end Valor
