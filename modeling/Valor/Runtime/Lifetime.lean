import Valor.Lib.Runs
import Valor.Runtime.Machine

/-! Objects of type `ser_ctx` and the coroutine frames they refer to. An operation on an
object that does not exist, or that creates one under a name in use, is no operation. -/
namespace Valor.Lifetime

open Runs

variable {X R : Type}

structure SerCtx where
  händel : Option Nat
  owner : Bool

structure Frame (X R : Type) where
  promise : Promise X R
  done : Bool
  destroyed : Bool

/-- The objects alive now, by name, and every frame ever created. -/
structure World (X R : Type) where
  objects : Nat → Option SerCtx
  frames : List (Frame X R)

inductive Misuse where
  | destroyedTwice (f : Nat)
  | usedDestroyed (f : Nat)

namespace World

def initial : World X R := ⟨fun _ => none, []⟩

def modify (w : World X R) (x : Nat) (g : SerCtx → SerCtx) : World X R :=
  { w with objects := Function.update w.objects x ((w.objects x).map g) }

def remove (w : World X R) (x : Nat) : World X R :=
  { w with objects := Function.update w.objects x none }

def Refers (w : World X R) (x f : Nat) : Prop :=
  ∃ o, w.objects x = some o ∧ o.händel = some f

def Owns (w : World X R) (x f : Nat) : Prop :=
  ∃ o, w.objects x = some o ∧ o.händel = some f ∧ o.owner = true

def Alive (w : World X R) (f : Nat) : Prop :=
  ∃ fr, w.frames[f]? = some fr ∧ fr.destroyed = false

/-- `if (händel)` something that reads or writes the frame. -/
def withFrame (w : World X R) (x : Nat) (g : Frame X R → Frame X R) : Except Misuse (World X R) :=
  match (w.objects x).bind SerCtx.händel with
  | none => .ok w
  | some f =>
    match w.frames[f]? with
    | none => .error (.usedDestroyed f)
    | some fr =>
      if fr.destroyed then .error (.usedDestroyed f)
      else .ok { w with frames := w.frames.set f (g fr) }

/-- `operator()`: the body, if it is not done, runs until it suspends again. -/
def resume (w : World X R) (x : Nat) (body : Promise X R → Promise X R × Bool) :
    Except Misuse (World X R) :=
  w.withFrame x fun fr =>
    if fr.done then fr else { fr with promise := (body fr.promise).1, done := (body fr.promise).2 }

/-- `operator bool` reads `done()`. -/
def test (w : World X R) (x : Nat) : Except Misuse (World X R) := w.withFrame x id

def updatePromise (w : World X R) (x : Nat) (g : Promise X R → Promise X R) :
    Except Misuse (World X R) :=
  w.withFrame x fun fr => { fr with promise := g fr.promise }

/-- A call of the coroutine function; `get_return_object` makes the new object the owner. -/
def call (w : World X R) (x : Nat) : World X R :=
  match w.objects x with
  | some _ => w
  | none => ⟨Function.update w.objects x (some ⟨some w.frames.length, true⟩),
      w.frames ++ [⟨.initial, false, false⟩]⟩

/-- The default constructor sets the handle to null and leaves `owner` as it happens to be. -/
def defaultConstruct (w : World X R) (x : Nat) (owner : Bool) : World X R :=
  match w.objects x with
  | some _ => w
  | none => { w with objects := Function.update w.objects x (some ⟨none, owner⟩) }

def swapOwner (w : World X R) (x y : Nat) : World X R :=
  match w.objects x, w.objects y with
  | some a, some b =>
    (w.modify x fun o => { o with owner := b.owner }).modify y fun o => { o with owner := a.owner }
  | _, _ => w

/-- `x = std::move(y)`. -/
def moveAssign (w : World X R) (x y : Nat) : World X R :=
  match w.objects y with
  | none => w
  | some o =>
    let w := w.modify x fun t => { t with händel := o.händel }
    let w := w.modify x fun t => { t with owner := false }
    w.swapOwner x y

/-- `ser_ctx x(std::move(y))`. -/
def moveConstruct (w : World X R) (x y : Nat) (owner : Bool) : World X R :=
  match w.objects x, w.objects y with
  | none, some _ => (w.defaultConstruct x owner).moveAssign x y
  | _, _ => w

/-- `auto z = start(std::move(x))`. -/
def start (w : World X R) (z x : Nat) (body : Promise X R → Promise X R × Bool) :
    Except Misuse (World X R) :=
  match w.objects z, w.objects x with
  | none, some _ => do
    let w := w.modify x fun o => { o with owner := true }
    let w ← w.resume x body
    return w.moveConstruct z x false
  | _, _ => .ok w

def destroy (w : World X R) (f : Nat) : Except Misuse (World X R) :=
  match w.frames[f]? with
  | none => .error (.usedDestroyed f)
  | some fr =>
    if fr.destroyed then .error (.destroyedTwice f)
    else .ok { w with frames := w.frames.set f { fr with destroyed := true } }

/-- `~ser_ctx`. -/
def destruct (w : World X R) (x : Nat) : Except Misuse (World X R) :=
  match w.objects x with
  | none => .ok w
  | some o =>
    match o.händel with
    | some f => if o.owner then (w.destroy f).map (remove · x) else .ok (w.remove x)
    | none => .ok (w.remove x)

/-- `auto z = continue_from(ser, fun, results...)`; `c` is its local. -/
def continueFrom (w : World X R) (z c : Nat) (ser : List UInt8) (results : List R)
    (body : Promise X R → Promise X R × Bool) : Except Misuse (World X R) :=
  match w.objects z, w.objects c with
  | none, none =>
    if z = c then .ok w
    else do
      let w := w.call c
      let w ← w.updatePromise c (restored · ser results)
      let w ← w.start z c body
      w.destruct c
  | _, _ => .ok w

end World

inductive Op (X R : Type) where
  | call (x : Nat)
  | defaultConstruct (x : Nat) (owner : Bool)
  | moveConstruct (x y : Nat) (owner : Bool)
  | moveAssign (x y : Nat)
  | start (z x : Nat) (body : Promise X R → Promise X R × Bool)
  | resume (x : Nat) (body : Promise X R → Promise X R × Bool)
  | test (x : Nat)
  | deserialize (x : Nat) (s : List UInt8)
  | setAwRet (x : Nat) (r : R)
  | continueFrom (z c : Nat) (ser : List UInt8) (results : List R)
      (body : Promise X R → Promise X R × Bool)
  | destruct (x : Nat)

def step : Op X R → World X R → Except Misuse (World X R)
  | .call x, w => .ok (w.call x)
  | .defaultConstruct x owner, w => .ok (w.defaultConstruct x owner)
  | .moveConstruct x y owner, w => .ok (w.moveConstruct x y owner)
  | .moveAssign x y, w => .ok (w.moveAssign x y)
  | .start z x body, w => w.start z x body
  | .resume x body, w => w.resume x body
  | .test x, w => w.test x
  | .deserialize x s, w => w.updatePromise x (deserialize · s)
  | .setAwRet x r, w => w.updatePromise x (setAwRet · r)
  | .continueFrom z c ser results body, w => w.continueFrom z c ser results body
  | .destruct x, w => w.destruct x

namespace World

variable {w w' : World X R} {x y z f : Nat}

theorem Owns.refers (h : w.Owns x f) : w.Refers x f := by
  obtain ⟨o, ho, hf, _⟩ := h
  exact ⟨o, ho, hf⟩

/-- The same objects, and the same frames still there. -/
structure SameLife (w w' : World X R) : Prop where
  objects : w'.objects = w.objects
  alive : ∀ f, w'.Alive f ↔ w.Alive f

theorem SameLife.owns (h : SameLife w w') : w'.Owns x f ↔ w.Owns x f := by
  simp only [Owns, h.objects]

theorem alive_set {fr fr' : Frame X R} (at_f : w.frames[f]? = some fr)
    (same : fr'.destroyed = fr.destroyed) (g : Nat) :
    Alive { w with frames := w.frames.set f fr' } g ↔ w.Alive g := by
  have bound : f < w.frames.length := (List.getElem?_eq_some_iff.mp at_f).1
  by_cases hg : f = g
  · subst hg
    simp [Alive, List.getElem?_set_self bound, at_f, same]
  · simp [Alive, List.getElem?_set_ne hg]

theorem withFrame_sameLife {g : Frame X R → Frame X R}
    (keeps : ∀ fr, (g fr).destroyed = fr.destroyed) (h : w.withFrame x g = .ok w') :
    SameLife w w' := by
  unfold withFrame at h
  split at h
  · cases h
    exact ⟨rfl, fun _ => Iff.rfl⟩
  · split at h
    · cases h
    · rename_i f _ fr at_f
      split at h
      · cases h
      · cases h
        exact ⟨rfl, alive_set at_f (keeps fr)⟩

/-- Using an object is fine exactly when it has no handle or its frame is still there. -/
theorem withFrame_ok_iff (g : Frame X R → Frame X R) :
    (∃ w', w.withFrame x g = .ok w') ↔ ∀ f, w.Refers x f → w.Alive f := by
  unfold withFrame
  cases ho : w.objects x with
  | none => simp [Refers, ho]
  | some o =>
    cases hh : o.händel with
    | none => simp [Refers, ho, hh]
    | some f =>
      have refers : ∀ f', w.Refers x f' ↔ f' = f := by
        intro f'
        simp [Refers, ho, hh, eq_comm]
      simp only [refers, forall_eq, Option.bind_some, hh]
      cases hf : w.frames[f]? with
      | none => simp [Alive, hf]
      | some fr => cases hd : fr.destroyed <;> simp [Alive, hf, hd]

theorem resume_sameLife {body : Promise X R → Promise X R × Bool} (h : w.resume x body = .ok w') :
    SameLife w w' := by
  refine withFrame_sameLife (fun fr => ?_) h
  split <;> rfl

theorem updatePromise_sameLife {g : Promise X R → Promise X R}
    (h : w.updatePromise x g = .ok w') : SameLife w w' := by
  refine withFrame_sameLife (fun fr => ?_) h
  rfl

theorem moveAssign_objects {o : SerCtx} (hx : w.objects x ≠ none) (hy : w.objects y = some o) :
    (w.moveAssign x y).objects =
      Function.update (Function.update w.objects x (some o)) y (some { o with owner := false }) := by
  obtain ⟨t, ht⟩ := Option.ne_none_iff_exists'.mp hx
  funext z
  by_cases hxy : x = y
  · subst hxy
    by_cases hz : z = x <;> simp_all [moveAssign, modify, swapOwner]
  · by_cases hz : z = y
    · subst hz
      simp [moveAssign, modify, swapOwner, hy, ht, Ne.symm hxy]
    · by_cases hz' : z = x <;> simp_all [moveAssign, modify, swapOwner, Ne.symm hxy]

theorem swapOwner_frames : (w.swapOwner x y).frames = w.frames := by
  unfold swapOwner
  split <;> rfl

theorem moveAssign_frames : (w.moveAssign x y).frames = w.frames := by
  unfold moveAssign
  split
  · rfl
  · exact swapOwner_frames

/-- The target owns what the source owned; the source owns nothing, also when it is the target. -/
theorem moveAssign_owns (hx : w.objects x ≠ none) (hy : w.objects y ≠ none) :
    (w.moveAssign x y).Owns z f ↔ z ≠ y ∧ if z = x then w.Owns y f else w.Owns z f := by
  obtain ⟨o, ho⟩ := Option.ne_none_iff_exists'.mp hy
  unfold Owns
  rw [moveAssign_objects hx ho]
  by_cases hz : z = y
  · subst hz
    simp
  · by_cases hz' : z = x
    · subst hz'
      simp [hz, ho]
    · simp [hz, hz']

theorem defaultConstruct_frames {owner : Bool} : (w.defaultConstruct x owner).frames = w.frames := by
  unfold defaultConstruct
  split <;> rfl

theorem defaultConstruct_owns {owner : Bool} : (w.defaultConstruct x owner).Owns z f ↔ w.Owns z f := by
  unfold defaultConstruct
  split
  · rfl
  · rename_i fresh
    by_cases hz : z = x
    · subst hz
      simp [Owns, fresh]
    · simp [Owns, hz]

theorem moveConstruct_frames {owner : Bool} : (w.moveConstruct x y owner).frames = w.frames := by
  unfold moveConstruct
  split
  · rw [moveAssign_frames, defaultConstruct_frames]
  · rfl

theorem moveConstruct_owns {owner : Bool} (hx : w.objects x = none) (hy : w.objects y ≠ none) :
    (w.moveConstruct x y owner).Owns z f ↔ z ≠ y ∧ if z = x then w.Owns y f else w.Owns z f := by
  obtain ⟨o, ho⟩ := Option.ne_none_iff_exists'.mp hy
  have hxy : y ≠ x := by
    rintro rfl
    exact hy hx
  have target : (w.defaultConstruct x owner).objects x ≠ none := by simp [defaultConstruct, hx]
  have source : (w.defaultConstruct x owner).objects y ≠ none := by
    simp [defaultConstruct, hx, hxy, ho]
  simp only [moveConstruct, hx, ho, moveAssign_owns target source, defaultConstruct_owns]

theorem call_owns (hx : w.objects x = none) :
    (w.call x).Owns z f ↔ if z = x then f = w.frames.length else w.Owns z f := by
  by_cases hz : z = x
  · subst hz
    simp only [call, hx, Owns, Function.update_self, if_true]
    constructor
    · rintro ⟨o, ho, hf, _⟩
      cases ho
      exact (Option.some.inj hf).symm
    · rintro rfl
      exact ⟨_, rfl, rfl, rfl⟩
  · simp [call, hx, Owns, hz]

theorem call_alive (hx : w.objects x = none) :
    (w.call x).Alive f ↔ f = w.frames.length ∨ w.Alive f := by
  simp only [call, hx, Alive]
  rcases Nat.lt_trichotomy f w.frames.length with h | h | h
  · simp [List.getElem?_append_left h, Nat.ne_of_lt h]
  · subst h
    simp
  · have out : w.frames[f]? = none := List.getElem?_eq_none_iff.mpr (Nat.le_of_lt h)
    have out' : (w.frames ++ [⟨.initial, false, false⟩])[f]? = none :=
      List.getElem?_eq_none_iff.mpr (by simp; omega)
    simp [out, out', Nat.ne_of_gt h]

theorem destroy_spec {g : Nat} (h : w.destroy g = .ok w') :
    w'.objects = w.objects ∧ ∀ f, w'.Alive f ↔ w.Alive f ∧ f ≠ g := by
  unfold destroy at h
  split at h
  · cases h
  · rename_i fr at_g
    split at h
    · cases h
    · cases h
      have bound : g < w.frames.length := (List.getElem?_eq_some_iff.mp at_g).1
      refine ⟨rfl, fun f => ?_⟩
      by_cases hf : g = f
      · subst hf
        simp [Alive, List.getElem?_set_self bound]
      · simp [Alive, List.getElem?_set_ne hf, Ne.symm hf]

theorem destroy_ok {g : Nat} (alive : w.Alive g) : ∃ w', w.destroy g = .ok w' := by
  obtain ⟨fr, at_g, live⟩ := alive
  simp [destroy, at_g, live]

/-- The destructor removes the object; it destroys a frame only if the object owns one. -/
theorem destruct_eq (w : World X R) (x : Nat) :
    (∀ f, ¬ w.Owns x f) ∧ w.destruct x = .ok (w.remove x) ∨
    ∃ g, (∀ f, w.Owns x f ↔ f = g) ∧ w.destruct x = (w.destroy g).map (remove · x) := by
  cases ho : w.objects x with
  | none =>
    have same : w.remove x = w := by
      simp only [remove, ← ho, Function.update_eq_self]
    exact .inl ⟨by simp [Owns, ho], by simp [destruct, ho, same]⟩
  | some o =>
    cases hh : o.händel with
    | none => exact .inl ⟨by simp [Owns, ho, hh], by simp [destruct, ho, hh]⟩
    | some g =>
      cases hown : o.owner with
      | false => exact .inl ⟨by simp [Owns, ho, hown], by simp [destruct, ho, hh, hown]⟩
      | true =>
        refine .inr ⟨g, fun f => ?_, by simp [destruct, ho, hh, hown]⟩
        simpa [Owns, ho, hh, hown] using eq_comm

theorem remove_owns : (w.remove x).Owns z f ↔ z ≠ x ∧ w.Owns z f := by
  by_cases hz : z = x
  · subst hz
    simp [Owns, remove]
  · simp [Owns, remove, hz]

theorem destruct_spec (h : w.destruct x = .ok w') :
    (∀ z f, w'.Owns z f ↔ z ≠ x ∧ w.Owns z f) ∧ ∀ f, w'.Alive f ↔ w.Alive f ∧ ¬ w.Owns x f := by
  rcases destruct_eq w x with ⟨owns, eq⟩ | ⟨g, owns, eq⟩
  · cases eq.symm.trans h
    exact ⟨fun _ _ => remove_owns, fun f => by simp [owns, Alive, remove]⟩
  · rw [eq] at h
    cases hd : w.destroy g with
    | error m => simp [hd, Except.map] at h
    | ok w₁ =>
      simp only [hd, Except.map, Except.ok.injEq] at h
      subst h
      obtain ⟨objects, alive⟩ := destroy_spec hd
      refine ⟨fun z f => ?_, fun f => ?_⟩
      · rw [remove_owns]
        simp only [Owns, objects]
      · rw [owns, ← ne_eq, ← alive]
        rfl

theorem destruct_ok (alive : ∀ f, w.Owns x f → w.Alive f) : ∃ w', w.destruct x = .ok w' := by
  rcases destruct_eq w x with ⟨_, eq⟩ | ⟨g, owns, eq⟩
  · exact ⟨_, eq⟩
  · obtain ⟨w₁, hw⟩ := destroy_ok (alive g ((owns g).mpr rfl))
    exact ⟨w₁.remove x, by rw [eq, hw]; rfl⟩

theorem start_ok_iff (hz : w.objects z = none) (hx : w.objects x ≠ none)
    (body : Promise X R → Promise X R × Bool) :
    (∃ w', w.start z x body = .ok w') ↔ ∀ f, w.Refers x f → w.Alive f := by
  obtain ⟨o, ho⟩ := Option.ne_none_iff_exists'.mp hx
  have refers : ∀ f, (w.modify x fun o => { o with owner := true }).Refers x f ↔ w.Refers x f := by
    intro f
    simp [Refers, modify, ho]
  have ok := withFrame_ok_iff (w := w.modify x fun o => { o with owner := true }) (x := x)
    fun fr => if fr.done then fr
      else { fr with promise := (body fr.promise).1, done := (body fr.promise).2 }
  simp only [refers] at ok
  refine Iff.trans ?_ ok
  simp only [start, hz, ho, resume]
  cases withFrame _ x _ <;> simp [bind, Except.bind, pure, Except.pure]

/-- `start` makes its argument the owner and hands that to the result, whoever owned before. -/
theorem start_spec {body : Promise X R → Promise X R × Bool} (hz : w.objects z = none)
    (hx : w.objects x ≠ none) (h : w.start z x body = .ok w') :
    (∀ v f, w'.Owns v f ↔ v ≠ x ∧ if v = z then w.Refers x f else w.Owns v f) ∧
      ∀ f, w'.Alive f ↔ w.Alive f := by
  obtain ⟨o, ho⟩ := Option.ne_none_iff_exists'.mp hx
  simp only [start, hz, ho] at h
  cases hr : (w.modify x fun o => { o with owner := true }).resume x body with
  | error m => simp [hr, bind, Except.bind] at h
  | ok w₁ =>
    simp only [hr, bind, Except.bind, pure, Except.pure, Except.ok.injEq] at h
    subst h
    have life := resume_sameLife hr
    have hxz : z ≠ x := by
      rintro rfl
      exact hx hz
    have hz₁ : w₁.objects z = none := by simp [life.objects, modify, hxz, hz]
    have hx₁ : w₁.objects x ≠ none := by simp [life.objects, modify, ho]
    refine ⟨fun v f => ?_, fun f => ?_⟩
    · rw [moveConstruct_owns hz₁ hx₁, life.owns, life.owns]
      refine and_congr_right fun hv => ?_
      by_cases hvz : v = z
      · simp [hvz, Owns, Refers, modify, ho]
      · simp [hvz, Owns, modify, hv]
    · simp only [Alive, moveConstruct_frames]
      exact life.alive f

theorem call_refers (hx : w.objects x = none) (h : (w.call x).Refers x f) :
    f = w.frames.length := by
  obtain ⟨o, ho, hf⟩ := h
  simp only [call, hx, Function.update_self, Option.some.injEq] at ho
  subst ho
  exact (Option.some.inj hf).symm

/-- `continue_from` never fails; of its objects the result alone is left, owning the new frame. -/
theorem continueFrom_spec {c : Nat} (hz : w.objects z = none) (hc : w.objects c = none)
    (hne : z ≠ c) (ser : List UInt8) (results : List R)
    (body : Promise X R → Promise X R × Bool) :
    ∃ w', w.continueFrom z c ser results body = .ok w' ∧
      (∀ v f, w'.Owns v f ↔ if v = z then f = w.frames.length else w.Owns v f) ∧
      ∀ f, w'.Alive f ↔ f = w.frames.length ∨ w.Alive f := by
  have owns₁ : ∀ v f, (w.call c).Owns v f ↔ if v = c then f = w.frames.length else w.Owns v f :=
    fun _ _ => call_owns hc
  have alive₁ : ∀ f, (w.call c).Alive f ↔ f = w.frames.length ∨ w.Alive f := fun _ => call_alive hc
  have refers₁ : ∀ f, (w.call c).Refers c f → f = w.frames.length := fun _ => call_refers hc
  have usable : ∀ f, (w.call c).Refers c f → (w.call c).Alive f :=
    fun f hf => (alive₁ f).mpr (.inl (refers₁ f hf))
  obtain ⟨w₂, hw₂⟩ := (withFrame_ok_iff fun fr =>
    { fr with promise := restored fr.promise ser results }).mpr usable
  have life : SameLife (w.call c) w₂ :=
    updatePromise_sameLife (g := (restored · ser results)) hw₂
  have refers₂ : ∀ f, w₂.Refers c f ↔ (w.call c).Refers c f := by
    intro f
    simp only [Refers, life.objects]
  have hz₂ : w₂.objects z = none := by simp [life.objects, call, hc, hne, hz]
  have hc₂ : w₂.objects c ≠ none := by simp [life.objects, call, hc]
  obtain ⟨w₃, hw₃⟩ := (start_ok_iff hz₂ hc₂ body).mpr fun f hf =>
    (life.alive f).mpr (usable f ((refers₂ f).mp hf))
  obtain ⟨owns₃, alive₃⟩ := start_spec hz₂ hc₂ hw₃
  have let_go : ∀ f, ¬ w₃.Owns c f := fun f h => ((owns₃ c f).mp h).1 rfl
  obtain ⟨w₄, hw₄⟩ := destruct_ok fun f h => absurd h (let_go f)
  obtain ⟨owns₄, alive₄⟩ := destruct_spec hw₄
  have first : (w.call c).updatePromise c (restored · ser results) = .ok w₂ := hw₂
  refine ⟨w₄, ?_, fun v f => ?_, fun f => ?_⟩
  · simp only [continueFrom, hz, hc, if_neg hne, first, bind, Except.bind, hw₃, hw₄]
  · rw [owns₄, owns₃, refers₂]
    by_cases hv : v = c
    · subst hv
      simp [Ne.symm hne, Owns, hc]
    · by_cases hvz : v = z
      · subst hvz
        simp only [ne_eq, hv, not_false_eq_true, if_true, true_and]
        exact ⟨refers₁ f, fun hf => ((owns₁ c f).mpr (by simp [hf])).refers⟩
      · simp [hv, hvz, life.owns, owns₁]
  · rw [alive₄, alive₃, life.alive, alive₁]
    simp [let_go]

end World

end Valor.Lifetime
