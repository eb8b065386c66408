import Valor.Runtime.Lifetime

/-! Owners of coroutine frames over runs of operations on `ser_ctx` objects. Two laws are
looked at: that a frame has at most one owner and is not used once destroyed, and that it
has at least one until it is destroyed. -/
namespace Valor.Lifetime

open Runs

variable {X R : Type} {w w' : World X R} {x y z f : Nat}

def AtMostOne (w : World X R) : Prop :=
  ∀ x y f, w.Owns x f → w.Owns y f → x = y

/-- What holds between operations that are used with care. -/
structure Sound (w : World X R) : Prop where
  unique : AtMostOne w
  alive : ∀ x f, w.Owns x f → w.Alive f

/-- `start` is not called on an object whose coroutine has another owner, and nothing is
called on an object whose coroutine is gone. -/
def Careful : Op X R → World X R → Prop
  | .start z x _, w =>
    w.objects z = none → ∀ f, w.Refers x f → w.Alive f ∧ ∀ y, w.Owns y f → y = x
  | .resume x _, w | .test x, w | .deserialize x _, w | .setAwRet x _, w =>
    ∀ f, w.Refers x f → w.Alive f
  | _, _ => True

namespace World

theorem moveAssign_absent (absent : w.objects x = none ∨ w.objects y = none) :
    w.moveAssign x y = w := by
  cases hy : w.objects y with
  | none => simp [moveAssign, hy]
  | some o =>
    have hx : w.objects x = none := absent.resolve_right (by simp [hy])
    have same : ∀ g, w.modify x g = w := by
      intro g
      simp only [modify, hx, Option.map_none]
      rw [← hx, Function.update_eq_self]
    simp [moveAssign, hy, same, swapOwner, hx]

theorem moveConstruct_absent {owner : Bool}
    (absent : w.objects x ≠ none ∨ w.objects y = none) : w.moveConstruct x y owner = w := by
  unfold moveConstruct
  split
  · rename_i hx hy
    simp [hx, hy] at absent
  · rfl

theorem start_absent {body : Promise X R → Promise X R × Bool}
    (absent : w.objects z ≠ none ∨ w.objects x = none) : w.start z x body = .ok w := by
  unfold start
  split
  · rename_i hz hx
    simp [hz, hx] at absent
  · rfl

theorem call_present (hx : w.objects x ≠ none) : w.call x = w := by
  obtain ⟨o, ho⟩ := Option.ne_none_iff_exists'.mp hx
  simp [call, ho]

theorem continueFrom_absent {c : Nat} {ser : List UInt8} {results : List R}
    {body : Promise X R → Promise X R × Bool}
    (absent : ¬ (w.objects z = none ∧ w.objects c = none ∧ z ≠ c)) :
    w.continueFrom z c ser results body = .ok w := by
  unfold continueFrom
  split
  · rename_i hz hc
    have same : z = c := by
      by_contra hne
      exact absent ⟨hz, hc, hne⟩
    simp [same]
  · rfl

end World

open World

theorem Sound.of_same (h : Sound w) (life : SameLife w w') : Sound w' where
  unique x y f hx hy := h.unique x y f (life.owns.mp hx) (life.owns.mp hy)
  alive x f hx := (life.alive f).mpr (h.alive x f (life.owns.mp hx))

theorem Sound.of_new (h : Sound w)
    (owns : ∀ v f, w'.Owns v f ↔ if v = z then f = w.frames.length else w.Owns v f)
    (alive : ∀ f, w'.Alive f ↔ f = w.frames.length ∨ w.Alive f) : Sound w' := by
  have old : ∀ v f, w.Owns v f → f ≠ w.frames.length := by
    intro v f hv
    obtain ⟨_, hf, _⟩ := h.alive v f hv
    have bound : f < w.frames.length := (List.getElem?_eq_some_iff.mp hf).1
    omega
  constructor
  · intro x y f hx hy
    rw [owns] at hx hy
    by_cases hxz : x = z <;> by_cases hyz : y = z
    · rw [hxz, hyz]
    · rw [if_pos hxz] at hx
      rw [if_neg hyz] at hy
      exact absurd hx (old y f hy)
    · rw [if_neg hxz] at hx
      rw [if_pos hyz] at hy
      exact absurd hy (old x f hx)
    · rw [if_neg hxz] at hx
      rw [if_neg hyz] at hy
      exact h.unique x y f hx hy
  · intro x f hx
    rw [owns] at hx
    rw [alive]
    by_cases hxz : x = z
    · rw [if_pos hxz] at hx
      exact .inl hx
    · rw [if_neg hxz] at hx
      exact .inr (h.alive x f hx)

theorem Sound.of_moved (h : Sound w)
    (owns : ∀ v f, w'.Owns v f ↔ v ≠ y ∧ if v = x then w.Owns y f else w.Owns v f)
    (frames : w'.frames = w.frames) : Sound w' := by
  have source : ∀ v f, w'.Owns v f → w.Owns (if v = x then y else v) f := by
    intro v f hv
    have := ((owns v f).mp hv).2
    split at this <;> simp_all
  constructor
  · intro u v f hu hv
    have same := h.unique _ _ f (source u f hu) (source v f hv)
    have hu' := ((owns u f).mp hu).1
    have hv' := ((owns v f).mp hv).1
    split at same <;> split at same <;> simp_all
  · intro v f hv
    obtain ⟨fr, hf⟩ := h.alive _ f (source v f hv)
    exact ⟨fr, frames ▸ hf⟩

theorem Sound.call (h : Sound w) (x : Nat) : Sound (w.call x) := by
  by_cases hx : w.objects x = none
  · exact h.of_new (fun _ _ => call_owns hx) fun _ => call_alive hx
  · rwa [call_present hx]

theorem Sound.defaultConstruct (h : Sound w) (x : Nat) (owner : Bool) :
    Sound (w.defaultConstruct x owner) where
  unique x y f hx hy := h.unique x y f (defaultConstruct_owns.mp hx) (defaultConstruct_owns.mp hy)
  alive x f hx := by
    simp only [Alive, defaultConstruct_frames]
    exact h.alive x f (defaultConstruct_owns.mp hx)

theorem Sound.moveAssign (h : Sound w) (x y : Nat) : Sound (w.moveAssign x y) := by
  by_cases absent : w.objects x = none ∨ w.objects y = none
  · rwa [moveAssign_absent absent]
  · rw [not_or] at absent
    exact h.of_moved (fun _ _ => moveAssign_owns absent.1 absent.2) moveAssign_frames

theorem Sound.moveConstruct (h : Sound w) (x y : Nat) (owner : Bool) :
    Sound (w.moveConstruct x y owner) := by
  by_cases absent : w.objects x ≠ none ∨ w.objects y = none
  · rwa [moveConstruct_absent absent]
  · rw [not_or, not_not] at absent
    exact h.of_moved (fun _ _ => moveConstruct_owns absent.1 absent.2) moveConstruct_frames

theorem Sound.destruct (h : Sound w) (x : Nat) : ∃ w', w.destruct x = .ok w' ∧ Sound w' := by
  obtain ⟨w', hw⟩ := destruct_ok (h.alive x)
  obtain ⟨owns, alive⟩ := destruct_spec hw
  refine ⟨w', hw, fun y z f hy hz => ?_, fun y f hy => ?_⟩
  · exact h.unique y z f ((owns y f).mp hy).2 ((owns z f).mp hz).2
  · obtain ⟨hyx, hy'⟩ := (owns y f).mp hy
    exact (alive f).mpr ⟨h.alive y f hy', fun hx => hyx (h.unique y x f hy' hx)⟩

theorem Sound.start (h : Sound w) (body : Promise X R → Promise X R × Bool)
    (careful : Careful (.start z x body) w) : ∃ w', w.start z x body = .ok w' ∧ Sound w' := by
  by_cases absent : w.objects z ≠ none ∨ w.objects x = none
  · exact ⟨w, start_absent absent, h⟩
  · rw [not_or, not_not] at absent
    obtain ⟨hz, hx⟩ := absent
    have alone := careful hz
    obtain ⟨w', hw⟩ := (start_ok_iff hz hx body).mpr fun f hf => (alone f hf).1
    obtain ⟨owns, alive⟩ := start_spec hz hx hw
    refine ⟨w', hw, fun u v f hu hv => ?_, fun v f hv => ?_⟩
    · obtain ⟨hux, hu⟩ := (owns u f).mp hu
      obtain ⟨hvx, hv⟩ := (owns v f).mp hv
      by_cases huz : u = z <;> by_cases hvz : v = z
      · rw [huz, hvz]
      · rw [if_pos huz] at hu
        rw [if_neg hvz] at hv
        exact absurd ((alone f hu).2 v hv) hvx
      · rw [if_neg huz] at hu
        rw [if_pos hvz] at hv
        exact absurd ((alone f hv).2 u hu) hux
      · rw [if_neg huz] at hu
        rw [if_neg hvz] at hv
        exact h.unique u v f hu hv
    · obtain ⟨_, hv⟩ := (owns v f).mp hv
      by_cases hvz : v = z
      · rw [if_pos hvz] at hv
        exact (alive f).mpr (alone f hv).1
      · rw [if_neg hvz] at hv
        exact (alive f).mpr (h.alive v f hv)

theorem Sound.withFrame (h : Sound w) {g : Frame X R → Frame X R}
    (keeps : ∀ fr, (g fr).destroyed = fr.destroyed) (usable : ∀ f, w.Refers x f → w.Alive f) :
    ∃ w', w.withFrame x g = .ok w' ∧ Sound w' := by
  obtain ⟨w', hw⟩ := (withFrame_ok_iff g).mpr usable
  exact ⟨w', hw, h.of_same (withFrame_sameLife keeps hw)⟩

theorem sound_step (a : Op X R) (w : World X R) (h : Sound w) (careful : Careful a w) :
    ∃ w', step a w = .ok w' ∧ Sound w' := by
  cases a with
  | call x => exact ⟨_, rfl, h.call x⟩
  | defaultConstruct x owner => exact ⟨_, rfl, h.defaultConstruct x owner⟩
  | moveConstruct x y owner => exact ⟨_, rfl, h.moveConstruct x y owner⟩
  | moveAssign x y => exact ⟨_, rfl, h.moveAssign x y⟩
  | start z x body => exact h.start body careful
  | resume x body => exact h.withFrame (fun fr => by split <;> rfl) careful
  | test x => exact h.withFrame (fun _ => rfl) careful
  | deserialize x s => exact h.withFrame (fun _ => rfl) careful
  | setAwRet x r => exact h.withFrame (fun _ => rfl) careful
  | continueFrom z c ser results body =>
    by_cases fresh : w.objects z = none ∧ w.objects c = none ∧ z ≠ c
    · obtain ⟨hz, hc, hne⟩ := fresh
      obtain ⟨w', hw, owns, alive⟩ := continueFrom_spec hz hc hne ser results body
      exact ⟨w', hw, h.of_new owns alive⟩
    · exact ⟨w, continueFrom_absent fresh, h⟩
  | destruct x => exact h.destruct x

/-- Without the care the operation fails, or leaves a frame with two owners. -/
theorem careful_of_step (a : Op X R) (w w' : World X R) (ok : step a w = .ok w')
    (good : AtMostOne w') : Careful a w := by
  cases a with
  | start z x body =>
    intro hz f hf
    have hx : w.objects x ≠ none := by
      obtain ⟨o, ho, _⟩ := hf
      simp [ho]
    refine ⟨(start_ok_iff hz hx body).mp ⟨w', ok⟩ f hf, fun y hy => ?_⟩
    obtain ⟨owns, _⟩ := start_spec hz hx ok
    have hzx : z ≠ x := by
      rintro rfl
      exact hx hz
    have hyz : y ≠ z := by
      rintro rfl
      obtain ⟨o, ho, _⟩ := hy
      simp [ho] at hz
    by_contra hyx
    have result : w'.Owns z f := (owns z f).mpr ⟨hzx, by simpa using hf⟩
    have other : w'.Owns y f := (owns y f).mpr ⟨hyx, by simpa [hyz] using hy⟩
    exact hyz (good y z f other result)
  | resume x body => exact (withFrame_ok_iff _).mp ⟨w', ok⟩
  | test x => exact (withFrame_ok_iff _).mp ⟨w', ok⟩
  | deserialize x s => exact (withFrame_ok_iff _).mp ⟨w', ok⟩
  | setAwRet x r => exact (withFrame_ok_iff _).mp ⟨w', ok⟩
  | call | defaultConstruct | moveConstruct | moveAssign | continueFrom | destruct => trivial

theorem sound_initial : Sound (X := X) (R := R) .initial where
  unique := by
    rintro x y f ⟨o, ho, _⟩
    cases ho
  alive := by
    rintro x f ⟨o, ho, _⟩
    cases ho

/-- At most one owner, no frame destroyed twice or used when destroyed: in exactly the runs
that take care. -/
theorem frames_safe_iff (ops : List (Op X R)) :
    Safely step AtMostOne ops .initial ↔ Along step Careful ops .initial :=
  safely_iff_along (fun _ h => h.unique) sound_step
    (fun a w w' _ => careful_of_step a w w') ops _ sound_initial

/-- A moved-from object still has the handle: `start` makes a second owner from it, and
`deserialize` writes through it when the frame is gone. -/
theorem moved_from_unsafe :
    ¬ Safely step AtMostOne
        [.call 0, .moveConstruct 1 0 false, .start 2 0 fun p => (p, false)]
        (World.initial : World Nat Nat) ∧
    ¬ Safely step AtMostOne
        [.call 0, .moveConstruct 1 0 false, .destruct 1, .deserialize 0 []]
        (World.initial : World Nat Nat) := by
  constructor
  · rintro ⟨_, _, h₁, _, _, h₂, _, w, h₃, good⟩
    cases h₁
    cases h₂
    cases h₃
    exact absurd (good 1 2 0 ⟨_, rfl, rfl, rfl⟩ ⟨_, rfl, rfl, rfl⟩) (by decide)
  · rintro ⟨_, _, h₁, _, _, h₂, _, _, h₃, _, _, h₄, _⟩
    cases h₁
    cases h₂
    cases h₃
    cases h₄

/-! ### Frames nobody owns -/

def NoLeak (w : World X R) : Prop :=
  ∀ f, w.Alive f → ∃ x, w.Owns x f

/-- An assignment leaves no frame behind that only its target owned. -/
def Tidy : Op X R → World X R → Prop
  | .moveAssign x y, w =>
    w.objects y ≠ none → ∀ f, w.Owns x f → w.Alive f → ∃ z, z ≠ x ∧ w.Owns z f
  | _, _ => True

theorem NoLeak.of_same (h : NoLeak w) (life : SameLife w w') : NoLeak w' := by
  intro f hf
  obtain ⟨x, hx⟩ := h f ((life.alive f).mp hf)
  exact ⟨x, life.owns.mpr hx⟩

theorem NoLeak.of_new (h : NoLeak w) (hz : w.objects z = none)
    (owns : ∀ v f, w'.Owns v f ↔ if v = z then f = w.frames.length else w.Owns v f)
    (alive : ∀ f, w'.Alive f ↔ f = w.frames.length ∨ w.Alive f) : NoLeak w' := by
  intro f hf
  rcases (alive f).mp hf with hf | hf
  · exact ⟨z, (owns z f).mpr (by simpa using hf)⟩
  · obtain ⟨x, hx⟩ := h f hf
    have hxz : x ≠ z := by
      rintro rfl
      obtain ⟨o, ho, _⟩ := hx
      simp [ho] at hz
    exact ⟨x, (owns x f).mpr (by simpa [hxz] using hx)⟩

theorem NoLeak.of_moved (h : NoLeak w)
    (owns : ∀ v f, w'.Owns v f ↔ v ≠ y ∧ if v = x then w.Owns y f else w.Owns v f)
    (frames : w'.frames = w.frames)
    (tidy : ∀ f, w.Owns x f → w.Alive f → ∃ z, z ≠ x ∧ w.Owns z f) : NoLeak w' := by
  intro f hf
  simp only [Alive, frames] at hf
  have other : ∃ z, z ≠ x ∧ w.Owns z f := by
    obtain ⟨z, hz⟩ := h f hf
    by_cases hzx : z = x
    · exact tidy f (hzx ▸ hz) hf
    · exact ⟨z, hzx, hz⟩
  obtain ⟨z, hzx, hz⟩ := other
  by_cases hzy : z = y
  · have hxy : x ≠ y := fun hxy => hzx (hzy.trans hxy.symm)
    exact ⟨x, (owns x f).mpr ⟨hxy, by simpa [hzy] using hzy ▸ hz⟩⟩
  · exact ⟨z, (owns z f).mpr ⟨hzy, by simpa [hzx] using hz⟩⟩

theorem NoLeak.moveConstruct (h : NoLeak w) (x y : Nat) (owner : Bool) :
    NoLeak (w.moveConstruct x y owner) := by
  by_cases absent : w.objects x ≠ none ∨ w.objects y = none
  · rwa [moveConstruct_absent absent]
  · rw [not_or, not_not] at absent
    refine h.of_moved (fun _ _ => moveConstruct_owns absent.1 absent.2) moveConstruct_frames ?_
    rintro f ⟨o, ho, _⟩
    simp [absent.1] at ho

theorem NoLeak.moveAssign (h : NoLeak w) (tidy : Tidy (.moveAssign x y) w) :
    NoLeak (w.moveAssign x y) := by
  by_cases absent : w.objects x = none ∨ w.objects y = none
  · rwa [moveAssign_absent absent]
  · rw [not_or] at absent
    exact h.of_moved (fun _ _ => moveAssign_owns absent.1 absent.2) moveAssign_frames
      (tidy absent.2)

theorem NoLeak.start (h : NoLeak w) {body : Promise X R → Promise X R × Bool}
    (ok : w.start z x body = .ok w') : NoLeak w' := by
  by_cases absent : w.objects z ≠ none ∨ w.objects x = none
  · cases (start_absent absent).symm.trans ok
    exact h
  · rw [not_or, not_not] at absent
    obtain ⟨hz, hx⟩ := absent
    obtain ⟨owns, alive⟩ := start_spec hz hx ok
    intro f hf
    obtain ⟨v, hv⟩ := h f ((alive f).mp hf)
    have hne : ∀ u, w.objects u ≠ none → u ≠ z := by
      rintro u hu rfl
      exact hu hz
    by_cases hvx : v = x
    · subst hvx
      exact ⟨z, (owns z f).mpr ⟨(hne v hx).symm, by simpa using hv.refers⟩⟩
    · have hvz : v ≠ z := by
        obtain ⟨o, ho, _⟩ := hv
        exact hne v (by simp [ho])
      exact ⟨v, (owns v f).mpr ⟨hvx, by simpa [hvz] using hv⟩⟩

theorem NoLeak.destruct (h : NoLeak w) (ok : w.destruct x = .ok w') : NoLeak w' := by
  obtain ⟨owns, alive⟩ := destruct_spec ok
  intro f hf
  obtain ⟨alive, let_go⟩ := (alive f).mp hf
  obtain ⟨z, hz⟩ := h f alive
  have hzx : z ≠ x := by
    rintro rfl
    exact let_go hz
  exact ⟨z, (owns z f).mpr ⟨hzx, hz⟩⟩

theorem noLeak_step (a : Op X R) (w w' : World X R) (h : NoLeak w) (tidy : Tidy a w)
    (ok : step a w = .ok w') : NoLeak w' := by
  cases a with
  | call x =>
    cases ok
    by_cases hx : w.objects x = none
    · exact h.of_new hx (fun _ _ => call_owns hx) fun _ => call_alive hx
    · rwa [call_present hx]
  | defaultConstruct x owner =>
    cases ok
    intro f hf
    simp only [Alive, defaultConstruct_frames] at hf
    obtain ⟨y, hy⟩ := h f hf
    exact ⟨y, defaultConstruct_owns.mpr hy⟩
  | moveConstruct x y owner =>
    cases ok
    exact h.moveConstruct x y owner
  | moveAssign x y =>
    cases ok
    exact h.moveAssign tidy
  | start z x body => exact h.start ok
  | resume x body => exact h.of_same (resume_sameLife ok)
  | test x => exact h.of_same (withFrame_sameLife (fun _ => rfl) ok)
  | deserialize x s => exact h.of_same (updatePromise_sameLife (g := (Valor.deserialize · s)) ok)
  | setAwRet x r => exact h.of_same (updatePromise_sameLife (g := (Valor.setAwRet · r)) ok)
  | continueFrom z c ser results body =>
    by_cases fresh : w.objects z = none ∧ w.objects c = none ∧ z ≠ c
    · obtain ⟨hz, hc, hne⟩ := fresh
      obtain ⟨v, hv, owns, alive⟩ := continueFrom_spec hz hc hne ser results body
      cases hv.symm.trans ok
      exact h.of_new hz owns alive
    · cases (continueFrom_absent fresh).symm.trans ok
      exact h
  | destruct x => exact h.destruct ok

theorem tidy_of_step (a : Op X R) (w : World X R)
    (good : ∀ w', step a w = .ok w' → NoLeak w') : Tidy a w := by
  cases a with
  | moveAssign x y =>
    intro hy f hf alive
    have hx : w.objects x ≠ none := by
      obtain ⟨o, ho, _⟩ := hf
      simp [ho]
    have still : (w.moveAssign x y).Alive f := by
      simp only [Alive, moveAssign_frames]
      exact alive
    obtain ⟨z, hz⟩ := good _ rfl f still
    obtain ⟨hzy, hz⟩ := (moveAssign_owns hx hy).mp hz
    by_cases hzx : z = x
    · rw [if_pos hzx] at hz
      exact ⟨y, fun hyx => hzy (hzx.trans hyx.symm), hz⟩
    · rw [if_neg hzx] at hz
      exact ⟨z, hzx, hz⟩
  | call | defaultConstruct | moveConstruct | start | resume | test | deserialize | setAwRet
  | continueFrom | destruct => trivial

/-- Once no object is left, nothing is. -/
theorem NoLeak.all_gone (h : NoLeak w) (gone : ∀ x, w.objects x = none) (f : Nat) :
    ¬ w.Alive f := by
  intro hf
  obtain ⟨x, o, ho, _⟩ := h f hf
  simp [gone] at ho

/-- No frame is lost in exactly the runs whose assignments are tidy; then no frame
outlives the last object. -/
theorem frames_owned_iff (ops : List (Op X R)) :
    Throughout step (fun w => NoLeak w ∧ ((∀ x, w.objects x = none) → ∀ f, ¬ w.Alive f))
      ops .initial ↔ Along step Tidy ops .initial := by
  have start : NoLeak (World.initial : World X R) := by
    rintro f ⟨fr, hf, _⟩
    cases hf
  exact throughout_iff_along (fun _ h => ⟨h, h.all_gone⟩) noLeak_step
    (fun a w _ good => tidy_of_step a w fun w' ok => (good w' ok).1) ops _ start

/-- `a = std::move(b)` forgets the coroutine `a` had, `a = std::move(a)` its own. -/
theorem assignment_leaks :
    ¬ Throughout step NoLeak [.call 0, .call 1, .moveAssign 0 1]
        (World.initial : World Nat Nat) ∧
    ¬ Throughout step NoLeak [.call 0, .moveAssign 0 0] (World.initial : World Nat Nat) := by
  constructor
  · rintro ⟨_, h⟩
    obtain ⟨_, h⟩ := h _ rfl
    obtain ⟨_, h⟩ := h _ rfl
    obtain ⟨x, o, ho, hf, hown⟩ := h _ rfl 0 ⟨_, rfl, rfl⟩
    by_cases h₁ : x = 1
    · subst h₁
      cases ho
      cases hf
    · by_cases h₀ : x = 0
      · subst h₀
        cases ho
        cases hf
      · simp [World.call, World.moveAssign, World.modify, World.swapOwner, World.initial, h₀, h₁] at ho
  · rintro ⟨_, h⟩
    obtain ⟨_, h⟩ := h _ rfl
    obtain ⟨x, o, ho, hf, hown⟩ := h _ rfl 0 ⟨_, rfl, rfl⟩
    by_cases h₀ : x = 0
    · subst h₀
      cases ho
      cases hown
    · simp [World.call, World.moveAssign, World.modify, World.swapOwner, World.initial, h₀] at ho

end Valor.Lifetime
