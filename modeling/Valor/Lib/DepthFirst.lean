import Mathlib.Data.Finset.Card
import Mathlib.Data.List.Pairwise
import Mathlib.Logic.Relation

/-! Depth-first search with a list of visited nodes that lasts from one search to the next.
A node is visited unless one that is the same was; its items are passed in order, and may
lead to further nodes. Entering a node and leaving an item can fail. -/
namespace DepthFirst

inductive Stop where
  | fuel | failed
  deriving DecidableEq

structure Search (N E M : Type*) where
  same : N → N → Bool
  items : N → List E
  target : E → Option N
  entry : N → Bool
  check : E → Bool
  before : E → List M
  after : E → List M

/-- `marks` is what the items left, each under its node. -/
structure State (N M : Type*) where
  visited : List N
  marks : List (N × M)

universe u

variable {N E M : Type*} {σ τ : Type u}

def State.mark (s : State N M) (a : N) (ms : List M) : State N M :=
  { s with marks := s.marks ++ ms.map (Prod.mk a) }

@[simp] theorem State.mark_visited (s : State N M) (a : N) (ms : List M) :
    (s.mark a ms).visited = s.visited := rfl

@[simp] theorem State.mark_nil (s : State N M) (a : N) : s.mark a [] = s := by simp [State.mark]

/-! ### Folds that may stop -/

theorem bind_ok {x : Except Stop σ} {f : σ → Except Stop τ} {t : τ} :
    x >>= f = .ok t ↔ ∃ s, x = .ok s ∧ f s = .ok t := by
  cases x with
  | error e =>
    constructor
    · intro h
      cases h
    · rintro ⟨_, h, _⟩
      cases h
  | ok s =>
    constructor
    · exact fun h => ⟨s, rfl, h⟩
    · rintro ⟨_, h, h'⟩
      cases h
      exact h'

theorem bind_error {x : Except Stop σ} {f : σ → Except Stop τ} {e : Stop} :
    x >>= f = .error e ↔ x = .error e ∨ ∃ s, x = .ok s ∧ f s = .error e := by
  cases x with
  | error e' =>
    constructor
    · intro h
      exact .inl (by cases h; rfl)
    · rintro (h | ⟨_, h, _⟩)
      · cases h
        rfl
      · cases h
  | ok s =>
    constructor
    · exact fun h => .inr ⟨s, rfl, h⟩
    · rintro (h | ⟨_, h, h'⟩)
      · cases h
      · cases h
        exact h'

theorem foldlM_error {f : σ → E → Except Stop σ} {es : List E} {s : σ} {x : Stop}
    (h : es.foldlM f s = .error x) : ∃ done e rest s₁, es = done ++ e :: rest ∧
      done.foldlM f s = .ok s₁ ∧ f s₁ e = .error x := by
  induction es generalizing s with
  | nil => cases h
  | cons e es ih =>
    rw [List.foldlM_cons] at h
    rcases bind_error.mp h with stop | ⟨s₁, step, rest⟩
    · exact ⟨[], e, es, s, rfl, rfl, stop⟩
    · obtain ⟨done, e', rest', s₂, split, run, stop⟩ := ih rest
      refine ⟨e :: done, e', rest', s₂, by rw [split]; rfl, ?_, stop⟩
      rw [List.foldlM_cons, step]
      exact run

/-- A step that has not run out of fuel does the same with more. -/
theorem foldlM_more {f f' : σ → E → Except Stop σ}
    (step : ∀ s e, f s e ≠ .error .fuel → f' s e = f s e) {es : List E} {s : σ}
    (h : es.foldlM f s ≠ .error .fuel) : es.foldlM f' s = es.foldlM f s := by
  induction es generalizing s with
  | nil => rfl
  | cons e es ih =>
    rw [List.foldlM_cons] at h ⊢
    rw [List.foldlM_cons, step s e fun stop => h (bind_error.mpr (.inl stop))]
    cases first : f s e with
    | error x => rfl
    | ok s₁ => exact ih fun stop => h (bind_error.mpr (.inr ⟨s₁, first, stop⟩))

theorem foldlM_map {f : σ → E → Except Stop σ} {g : τ → E → Except Stop τ} (abs : σ → τ)
    {es : List E} (step : ∀ s, ∀ e ∈ es, (f s e).map abs = g (abs s) e) (s : σ) :
    (es.foldlM f s).map abs = es.foldlM g (abs s) := by
  induction es generalizing s with
  | nil => rfl
  | cons e es ih =>
    rw [List.foldlM_cons, List.foldlM_cons, ← step s e List.mem_cons_self]
    cases f s e with
    | error x => rfl
    | ok s₁ => exact ih (fun s e' mem => step s e' (List.mem_cons_of_mem e mem)) s₁

namespace Search

variable (S : Search N E M)

def follow (walk : N → State N M → Except Stop (State N M)) (e : E) (s : State N M) :
    Except Stop (State N M) :=
  match S.target e with
  | some b => walk b s
  | none => .ok s

/-- Passing one item of `a`, with `walk` for the node it leads to. -/
def pass (walk : N → State N M → Except Stop (State N M)) (a : N) (s : State N M) (e : E) :
    Except Stop (State N M) := do
  let s' ← S.follow walk e (s.mark a (S.before e))
  if S.check e then .ok (s'.mark a (S.after e)) else .error .failed

def visit : Nat → N → State N M → Except Stop (State N M)
  | 0, _, _ => .error .fuel
  | fuel + 1, a, s =>
    if ¬ S.entry a then .error .failed
    else if s.visited.any (S.same a) then .ok s
    else (S.items a).foldlM (S.pass (visit fuel) a) { s with visited := s.visited ++ [a] }

def visitAll (fuel : Nat) (roots : List N) (s : State N M) : Except Stop (State N M) :=
  roots.foldlM (fun s a => S.visit fuel a s) s

/-- `same` is an equality of nodes as far as the search can tell, and no mark is left twice. -/
structure Lawful : Prop where
  refl : ∀ a, S.same a a
  symm : ∀ a b, S.same a b → S.same b a
  items : ∀ a b, S.same a b → S.items a = S.items b
  once : ∀ a, ((S.items a).flatMap fun e => S.before e ++ S.after e).Nodup

def Leads (a b : N) : Prop := ∃ e ∈ S.items a, S.target e = some b

def Reaches : N → N → Prop := Relation.ReflTransGen S.Leads

def Fine (a : N) : Prop := S.entry a ∧ ∀ e ∈ S.items a, S.check e

variable {S} {walk walk' : N → State N M → Except Stop (State N M)} {a : N} {e : E} {es : List E}
  {fuel : Nat} {s s' : State N M} {roots : List N}

/-! ### What one step can do -/

theorem pass_ok (h : S.pass walk a s e = .ok s') : S.check e ∧ ∃ s₁, s' = s₁.mark a (S.after e) ∧
    (S.target e = none ∧ s₁ = s.mark a (S.before e) ∨
      ∃ b, S.target e = some b ∧ walk b (s.mark a (S.before e)) = .ok s₁) := by
  obtain ⟨s₁, inner, last⟩ := bind_ok.mp h
  split at last
  · rename_i checked
    refine ⟨checked, s₁, (Except.ok.inj last).symm, ?_⟩
    rw [follow] at inner
    split at inner
    · rename_i b leads
      exact .inr ⟨b, leads, inner⟩
    · rename_i none
      exact .inl ⟨none, (Except.ok.inj inner).symm⟩
  · cases last

theorem pass_error {x : Stop} (h : S.pass walk a s e = .error x) :
    x = .failed ∧ ¬ S.check e ∨
      ∃ b, S.target e = some b ∧ walk b (s.mark a (S.before e)) = .error x := by
  rcases bind_error.mp h with inner | ⟨s₁, _, last⟩
  · rw [follow] at inner
    split at inner
    · rename_i b leads
      exact .inr ⟨b, leads, inner⟩
    · cases inner
  · split at last
    · cases last
    · rename_i unchecked
      cases last
      exact .inl ⟨rfl, unchecked⟩

theorem visit_ok (h : S.visit (fuel + 1) a s = .ok s') : S.entry a ∧
    (s.visited.any (S.same a) ∧ s' = s ∨ ¬ s.visited.any (S.same a) ∧
      (S.items a).foldlM (S.pass (S.visit fuel) a) { s with visited := s.visited ++ [a] } =
        .ok s') := by
  rw [visit] at h
  split at h
  · cases h
  · rename_i entered
    refine ⟨not_not.mp entered, ?_⟩
    split at h
    · rename_i seen
      exact .inl ⟨seen, (Except.ok.inj h).symm⟩
    · rename_i fresh
      exact .inr ⟨fresh, h⟩

theorem visit_error {x : Stop} (h : S.visit (fuel + 1) a s = .error x) :
    x = .failed ∧ ¬ S.entry a ∨ ¬ s.visited.any (S.same a) ∧
      (S.items a).foldlM (S.pass (S.visit fuel) a) { s with visited := s.visited ++ [a] } =
        .error x := by
  rw [visit] at h
  split at h
  · rename_i refused
    cases h
    exact .inl ⟨rfl, refused⟩
  · split at h
    · cases h
    · rename_i fresh
      exact .inr ⟨fresh, h⟩

/-! ### Marks -/

def Once (S : Search N E M) (marks : List (N × M)) : Prop :=
  marks.Pairwise fun m m' => S.same m.1 m'.1 → m.2 ≠ m'.2

/-- From `s` to `s'` there are new nodes with their marks, and the marks `own` of nodes
that were visited before. -/
def Grows (S : Search N E M) (s s' : State N M) (own : List (N × M)) : Prop :=
  ∃ new out, s'.visited = s.visited ++ new ∧ s'.marks = s.marks ++ out ∧
    (∀ b ∈ new, ∀ a ∈ s.visited, ¬ S.same a b) ∧ (∀ m ∈ out, m ∈ own ∨ m.1 ∈ new) ∧
    ((∀ m ∈ own, m.1 ∈ s.visited) → S.Once own → S.Once out)

theorem Grows.subset {own : List (N × M)} (h : S.Grows s s' own) : s.visited ⊆ s'.visited := by
  obtain ⟨new, _, visited, _⟩ := h
  rw [visited]
  exact List.subset_append_left _ _

theorem Grows.marks_subset {own : List (N × M)} (h : S.Grows s s' own) : s.marks ⊆ s'.marks := by
  obtain ⟨_, out, _, marks, _⟩ := h
  rw [marks]
  exact List.subset_append_left _ _

theorem Grows.refl (s : State N M) : S.Grows s s [] :=
  ⟨[], [], by simp, by simp, by simp, by simp, fun _ once => once⟩

theorem grows_mark (s : State N M) (a : N) (ms : List M) :
    S.Grows s (s.mark a ms) (ms.map (Prod.mk a)) :=
  ⟨[], ms.map (Prod.mk a), by simp, rfl, by simp, fun _ mem => .inl mem, fun _ once => once⟩

theorem Grows.trans (lawful : S.Lawful) {s s₁ s' : State N M} {own own' : List (N × M)}
    (h : S.Grows s s₁ own) (h' : S.Grows s₁ s' own') : S.Grows s s' (own ++ own') := by
  have grown : s.visited ⊆ s₁.visited := h.subset
  obtain ⟨new, out, visited, marks, fresh, whose, once⟩ := h
  obtain ⟨new', out', visited', marks', fresh', whose', once'⟩ := h'
  refine ⟨new ++ new', out ++ out', ?_, ?_, ?_, ?_, ?_⟩
  · rw [visited', visited, List.append_assoc]
  · rw [marks', marks, List.append_assoc]
  · intro b mem a old
    rcases List.mem_append.mp mem with mem | mem
    · exact fresh b mem a old
    · exact fresh' b mem a (grown old)
  · intro m mem
    rcases List.mem_append.mp mem with mem | mem
    · exact (whose m mem).imp (List.mem_append_left _) (List.mem_append_left _)
    · exact (whose' m mem).imp (List.mem_append_right _) (List.mem_append_right _)
  · intro old owned
    obtain ⟨owned, owned', apart⟩ := List.pairwise_append.mp owned
    have old' : ∀ m ∈ own', m.1 ∈ s.visited := fun m mem => old m (List.mem_append_right _ mem)
    refine List.pairwise_append.mpr ⟨once (fun m mem => old m (List.mem_append_left _ mem)) owned,
      once' (fun m mem => grown (old' m mem)) owned', ?_⟩
    intro m mem m' mem' same
    have new_visited : ∀ b ∈ new, b ∈ s₁.visited := fun b hb => by
      rw [visited]
      exact List.mem_append_right _ hb
    rcases whose m mem with mine | mine <;> rcases whose' m' mem' with mine' | mine'
    · exact apart m mine m' mine' same
    · exact absurd same (fresh' _ mine' _ (grown (old m (List.mem_append_left _ mine))))
    · exact absurd (lawful.symm _ _ same) (fresh _ mine _ (old' m' mine'))
    · exact absurd same (fresh' _ mine' _ (new_visited _ mine))

theorem pass_grows (lawful : S.Lawful)
    (inner : ∀ b s s', walk b s = .ok s' → S.Grows s s' [])
    (h : S.pass walk a s e = .ok s') :
    S.Grows s s' ((S.before e ++ S.after e).map (Prod.mk a)) := by
  obtain ⟨_, s₁, rfl, way⟩ := pass_ok h
  have entered : S.Grows s s₁ ((S.before e).map (Prod.mk a)) := by
    rcases way with ⟨_, rfl⟩ | ⟨b, _, walked⟩
    · exact grows_mark s a (S.before e)
    · have := (grows_mark s a (S.before e)).trans lawful (inner _ _ _ walked)
      rwa [List.append_nil] at this
  rw [List.map_append]
  exact entered.trans lawful (grows_mark s₁ a (S.after e))

theorem fold_grows (lawful : S.Lawful)
    (inner : ∀ b s s', walk b s = .ok s' → S.Grows s s' [])
    (h : es.foldlM (S.pass walk a) s = .ok s') :
    S.Grows s s' ((es.flatMap fun e => S.before e ++ S.after e).map (Prod.mk a)) := by
  induction es generalizing s with
  | nil =>
    cases h
    exact .refl _
  | cons e es ih =>
    rw [List.foldlM_cons] at h
    obtain ⟨s₁, first, rest⟩ := bind_ok.mp h
    rw [List.flatMap_cons, List.map_append]
    exact (pass_grows lawful inner first).trans lawful (ih rest)

theorem visit_grows (lawful : S.Lawful) (h : S.visit fuel a s = .ok s') : S.Grows s s' [] := by
  induction fuel generalizing a s s' with
  | zero => cases h
  | succ fuel ih =>
    obtain ⟨_, ⟨_, rfl⟩ | ⟨unseen, run⟩⟩ := visit_ok h
    · exact .refl s'
    · obtain ⟨new, out, visited, marks, fresh, whose, once⟩ :=
        fold_grows lawful (fun _ _ _ walked => ih walked) run
      simp only [List.any_eq_true, not_exists, not_and] at unseen
      refine ⟨a :: new, out, ?_, marks, ?_, ?_, fun _ _ => once ?_ ?_⟩
      · rw [visited, List.append_assoc]
        rfl
      · intro b mem c old same
        rcases List.mem_cons.mp mem with rfl | mem
        · exact unseen c old (lawful.symm _ _ same)
        · exact fresh b mem c (List.mem_append_left _ old) same
      · intro m mem
        right
        rcases whose m mem with own | mem
        · obtain ⟨_, _, rfl⟩ := List.mem_map.mp own
          exact List.mem_cons_self
        · exact List.mem_cons_of_mem a mem
      · intro m own
        obtain ⟨_, _, rfl⟩ := List.mem_map.mp own
        exact List.mem_append_right _ List.mem_cons_self
      · refine List.pairwise_map.mpr ((lawful.once a).imp ?_)
        intro m m' ne _
        exact ne

theorem visitAll_grows (lawful : S.Lawful) (h : S.visitAll fuel roots s = .ok s') :
    S.Grows s s' [] := by
  induction roots generalizing s with
  | nil =>
    cases h
    exact .refl _
  | cons a roots ih =>
    simp only [visitAll, List.foldlM_cons] at h
    obtain ⟨s₁, first, rest⟩ := bind_ok.mp h
    exact (visit_grows lawful first).trans lawful (ih rest)

theorem visitAll_once (lawful : S.Lawful) (h : S.visitAll fuel roots ⟨[], []⟩ = .ok s') :
    S.Once s'.marks := by
  obtain ⟨_, out, _, marks, _, _, once⟩ := visitAll_grows lawful h
  rw [marks]
  exact once (by simp) .nil

/-! ### What a search has seen -/

def Leaves (S : Search N E M) (e : E) : List M := S.before e ++ S.after e

def Seen (S : Search N E M) (visited : List N) (a : N) : Prop := ∃ b ∈ visited, S.same a b

/-- The item was passed under `a`: what it leaves is there, and the node that it leads to was
entered. -/
def Passed (S : Search N E M) (s : State N M) (a : N) (e : E) : Prop :=
  S.check e ∧ (∀ m ∈ S.Leaves e, (a, m) ∈ s.marks) ∧
    ∀ b, S.target e = some b → S.entry b ∧ S.Seen s.visited b

def Done (S : Search N E M) (s : State N M) (a : N) : Prop :=
  S.entry a ∧ ∀ e ∈ S.items a, S.Passed s a e

theorem Seen.mono {visited visited' : List N} (h : S.Seen visited a) (more : visited ⊆ visited') :
    S.Seen visited' a := by
  obtain ⟨b, mem, same⟩ := h
  exact ⟨b, more mem, same⟩

theorem Passed.mono {own : List (N × M)} (h : S.Passed s a e) (more : S.Grows s s' own) :
    S.Passed s' a e := by
  obtain ⟨checked, left, entered⟩ := h
  refine ⟨checked, fun m mem => more.marks_subset (left m mem), fun b leads => ?_⟩
  exact (entered b leads).imp_right (·.mono more.subset)

theorem Done.mono {own : List (N × M)} (h : S.Done s a) (more : S.Grows s s' own) : S.Done s' a :=
  ⟨h.1, fun e mem => (h.2 e mem).mono more⟩

/-- A visit that comes to its end: what it leaves behind of `a` and of every new node. -/
def Through (S : Search N E M) (a : N) (s s' : State N M) : Prop :=
  S.entry a ∧ S.Seen s'.visited a ∧ ∀ b ∈ s'.visited, b ∈ s.visited ∨ S.Done s' b

theorem pass_done
    (inner : ∀ b s s', walk b s = .ok s' → S.Grows s s' [] ∧ S.Through b s s')
    (h : S.pass walk a s e = .ok s') :
    S.Passed s' a e ∧ ∀ b ∈ s'.visited, b ∈ s.visited ∨ S.Done s' b := by
  obtain ⟨checked, s₁, rfl, way⟩ := pass_ok h
  have last := grows_mark (S := S) s₁ a (S.after e)
  have left : (∀ m ∈ S.before e, (a, m) ∈ s₁.marks) →
      ∀ m ∈ S.Leaves e, (a, m) ∈ (s₁.mark a (S.after e)).marks := by
    intro first m mem
    rcases List.mem_append.mp mem with mem | mem
    · exact last.marks_subset (first m mem)
    · exact List.mem_append_right _ (List.mem_map_of_mem mem)
  have first : ∀ m ∈ S.before e, (a, m) ∈ (s.mark a (S.before e)).marks := fun m mem =>
    List.mem_append_right _ (List.mem_map_of_mem mem)
  obtain ⟨none, rfl⟩ | ⟨b, leads, walked⟩ := way
  · refine ⟨⟨checked, left first, fun b leads => ?_⟩, fun b mem => .inl mem⟩
    cases none.symm.trans leads
  · obtain ⟨grown, entered, seen, new⟩ := inner _ _ _ walked
    refine ⟨⟨checked, left fun m mem => grown.marks_subset (first m mem), fun b' leads' => ?_⟩,
      fun c mem => (new c mem).imp_right (·.mono last)⟩
    cases leads.symm.trans leads'
    exact ⟨entered, seen⟩

theorem fold_done (lawful : S.Lawful)
    (inner : ∀ b s s', walk b s = .ok s' → S.Grows s s' [] ∧ S.Through b s s')
    (h : es.foldlM (S.pass walk a) s = .ok s') :
    (∀ e ∈ es, S.Passed s' a e) ∧ ∀ b ∈ s'.visited, b ∈ s.visited ∨ S.Done s' b := by
  induction es generalizing s with
  | nil =>
    cases h
    exact ⟨by simp, fun b mem => .inl mem⟩
  | cons e es ih =>
    rw [List.foldlM_cons] at h
    obtain ⟨s₁, first, rest⟩ := bind_ok.mp h
    have more := fold_grows lawful (fun b s s' walked => (inner b s s' walked).1) rest
    obtain ⟨passed, done⟩ := ih rest
    obtain ⟨here, new⟩ := pass_done inner first
    refine ⟨List.forall_mem_cons.mpr ⟨here.mono more, passed⟩, fun c mem => ?_⟩
    rcases done c mem with old | done
    · exact (new c old).imp_right (·.mono more)
    · exact .inr done

theorem visit_through (lawful : S.Lawful) (h : S.visit fuel a s = .ok s') : S.Through a s s' := by
  induction fuel generalizing a s s' with
  | zero => cases h
  | succ fuel ih =>
    obtain ⟨entered, ⟨seen, rfl⟩ | ⟨_, run⟩⟩ := visit_ok h
    · exact ⟨entered, by simpa [Seen] using seen, fun b mem => .inl mem⟩
    · have inner : ∀ b s s', S.visit fuel b s = .ok s' → S.Grows s s' [] ∧ S.Through b s s' :=
        fun b s s' walked => ⟨visit_grows lawful walked, ih walked⟩
      obtain ⟨passed, done⟩ := fold_done lawful inner run
      have more := (fold_grows lawful (fun b s s' walked => (inner b s s' walked).1) run).subset
      have mem_a : a ∈ s'.visited := more (List.mem_append_right _ List.mem_cons_self)
      refine ⟨entered, ⟨a, mem_a, lawful.refl a⟩, fun b mem => ?_⟩
      rcases done b mem with old | done
      · rcases List.mem_append.mp old with old | new
        · exact .inl old
        · cases List.mem_singleton.mp new
          exact .inr ⟨entered, passed⟩
      · exact .inr done

theorem visitAll_through (lawful : S.Lawful) (h : S.visitAll fuel roots s = .ok s') :
    (∀ a ∈ roots, S.entry a ∧ S.Seen s'.visited a) ∧
      ∀ b ∈ s'.visited, b ∈ s.visited ∨ S.Done s' b := by
  induction roots generalizing s with
  | nil =>
    cases h
    exact ⟨by simp, fun b mem => .inl mem⟩
  | cons a roots ih =>
    simp only [visitAll, List.foldlM_cons] at h
    obtain ⟨s₁, first, rest⟩ := bind_ok.mp h
    have more := visitAll_grows lawful rest
    obtain ⟨entered, seen, new⟩ := visit_through lawful first
    obtain ⟨others, done⟩ := ih rest
    refine ⟨List.forall_mem_cons.mpr ⟨⟨entered, seen.mono more.subset⟩, others⟩, fun b mem => ?_⟩
    rcases done b mem with old | done
    · exact (new b old).imp_right (·.mono more)
    · exact .inr done

/-- What the roots reach was entered, and a node that is the same was passed through. -/
theorem visitAll_done (lawful : S.Lawful) (h : S.visitAll fuel roots ⟨[], []⟩ = .ok s')
    (root : a ∈ roots) {b : N} (reaches : S.Reaches a b) :
    S.entry b ∧ ∃ c, S.same b c ∧ S.Done s' c := by
  obtain ⟨entered, done⟩ := visitAll_through lawful h
  have closed : ∀ c ∈ s'.visited, S.Done s' c :=
    fun c mem => (done c mem).resolve_left List.not_mem_nil
  have reached : S.entry b ∧ S.Seen s'.visited b := by
    induction reaches with
    | refl => exact entered a root
    | tail _ leads ih =>
      obtain ⟨e, mem, leads⟩ := leads
      obtain ⟨c, visited, same⟩ := ih.2
      rw [lawful.items _ _ same] at mem
      exact ((closed c visited).2 e mem).2.2 _ leads
  obtain ⟨entry, c, visited, same⟩ := reached
  exact ⟨entry, c, same, closed c visited⟩

/-- Every node that the roots reach is fine when the searches have come to their end. -/
theorem visitAll_fine (lawful : S.Lawful) (h : S.visitAll fuel roots ⟨[], []⟩ = .ok s')
    (root : a ∈ roots) {b : N} (reaches : S.Reaches a b) : S.Fine b := by
  obtain ⟨entry, c, same, done⟩ := visitAll_done lawful h root reaches
  refine ⟨entry, fun e mem => ?_⟩
  rw [lawful.items _ _ same] at mem
  exact (done.2 e mem).1

/-! ### Where marks come from -/

/-- A mark that a walk from `a` leaves. -/
def From (S : Search N E M) (a : N) (m : N × M) : Prop :=
  S.Reaches a m.1 ∧ ∃ e ∈ S.items m.1, m.2 ∈ S.Leaves e

theorem fold_from (inner : ∀ b s s', walk b s = .ok s' → ∀ m ∈ s'.marks, m ∈ s.marks ∨ S.From b m)
    (sub : es ⊆ S.items a) (h : es.foldlM (S.pass walk a) s = .ok s') :
    ∀ m ∈ s'.marks, m ∈ s.marks ∨ S.From a m := by
  induction es generalizing s with
  | nil =>
    cases h
    exact fun m mem => .inl mem
  | cons e es ih =>
    rw [List.foldlM_cons] at h
    obtain ⟨s₁, first, rest⟩ := bind_ok.mp h
    obtain ⟨here, others⟩ := List.cons_subset.mp sub
    obtain ⟨_, s₂, rfl, way⟩ := pass_ok first
    have own : ∀ m ∈ S.Leaves e, S.From a (a, m) := fun m mem => ⟨.refl, e, here, mem⟩
    have entered : ∀ m ∈ (s.mark a (S.before e)).marks, m ∈ s.marks ∨ S.From a m := by
      intro m mem
      rcases List.mem_append.mp mem with old | new
      · exact .inl old
      · obtain ⟨m', mem', rfl⟩ := List.mem_map.mp new
        exact .inr (own m' (List.mem_append_left _ mem'))
    intro m mem
    refine (ih others rest m mem).elim (fun mem => ?_) .inr
    rcases List.mem_append.mp mem with mem | new
    · obtain ⟨_, rfl⟩ | ⟨b, leads, walked⟩ := way
      · exact entered m mem
      · rcases inner _ _ _ walked m mem with old | ⟨reaches, left⟩
        · exact entered m old
        · exact .inr ⟨reaches.head ⟨e, here, leads⟩, left⟩
    · obtain ⟨m', mem', rfl⟩ := List.mem_map.mp new
      exact .inr (own m' (List.mem_append_right _ mem'))

theorem visit_from (h : S.visit fuel a s = .ok s') : ∀ m ∈ s'.marks, m ∈ s.marks ∨ S.From a m := by
  induction fuel generalizing a s s' with
  | zero => cases h
  | succ fuel ih =>
    obtain ⟨_, ⟨_, rfl⟩ | ⟨_, run⟩⟩ := visit_ok h
    · exact fun m mem => .inl mem
    · intro m mem
      exact fold_from (fun _ _ _ walked => ih walked) (List.Subset.refl _) run m mem

theorem visitAll_from (h : S.visitAll fuel roots s = .ok s') :
    ∀ m ∈ s'.marks, m ∈ s.marks ∨ ∃ a ∈ roots, S.From a m := by
  induction roots generalizing s with
  | nil =>
    cases h
    exact fun m mem => .inl mem
  | cons a roots ih =>
    simp only [visitAll, List.foldlM_cons] at h
    obtain ⟨s₁, first, rest⟩ := bind_ok.mp h
    intro m mem
    rcases ih rest m mem with old | ⟨b, root, left⟩
    · exact (visit_from first m old).imp_right fun left => ⟨a, List.mem_cons_self, left⟩
    · exact .inr ⟨b, List.mem_cons_of_mem a root, left⟩

/-- Where nodes of one `key` have the same items: none of these is marked under two nodes of
a key just when the search tells no two such nodes apart, unless their items leave nothing. -/
theorem visitAll_once_iff {K : Type*} {key : N → K} (lawful : S.Lawful)
    (trans : ∀ a b c, S.same a b → S.same b c → S.same a c)
    (finer : ∀ a b, S.same a b → key a = key b)
    (items : ∀ a b, key a = key b → S.items a = S.items b)
    (h : S.visitAll fuel roots ⟨[], []⟩ = .ok s') :
    (s'.marks.Pairwise fun m m' => key m.1 = key m'.1 → m.2 ≠ m'.2) ↔
      ∀ r ∈ roots, ∀ r' ∈ roots, ∀ a b, S.Reaches r a → S.Reaches r' b → key a = key b →
        S.same a b ∨ ∀ e ∈ S.items a, S.Leaves e = [] := by
  constructor
  · intro once r root r' root' a b reaches reaches' one
    obtain ⟨_, c, same, done⟩ := visitAll_done lawful h root reaches
    obtain ⟨_, c', same', done'⟩ := visitAll_done lawful h root' reaches'
    by_contra apart
    obtain ⟨differ, some'⟩ := not_or.mp apart
    push Not at some'
    obtain ⟨e, mem, leaves⟩ := some'
    obtain ⟨m, left⟩ := List.exists_mem_of_ne_nil _ leaves
    have marked : (c, m) ∈ s'.marks := by
      rw [lawful.items _ _ same] at mem
      exact (done.2 e mem).2.1 m left
    have marked' : (c', m) ∈ s'.marks := by
      rw [items a b one, lawful.items _ _ same'] at mem
      exact (done'.2 e mem).2.1 m left
    have two : (c, m) ≠ (c', m) := by
      intro eq
      cases (Prod.ext_iff.mp eq).1
      exact differ (trans a c b same (lawful.symm _ _ same'))
    have : Std.Symm fun m m' : N × M => key m.1 = key m'.1 → m.2 ≠ m'.2 :=
      ⟨fun _ _ apart one eq => apart one.symm eq.symm⟩
    have keys : key c = key c' := ((finer _ _ same).symm.trans one).trans (finer _ _ same')
    exact once.forall marked marked' two keys rfl
  · intro told
    refine (visitAll_once lawful h).imp_of_mem ?_
    intro m m' mem mem' apart one eq
    obtain ⟨r, root, reaches, e, item, left⟩ := (visitAll_from h m mem).resolve_left (by simp)
    obtain ⟨r', root', reaches', _⟩ := (visitAll_from h m' mem').resolve_left (by simp)
    rcases told r root r' root' _ _ reaches reaches' one with same | nothing
    · exact apart same eq
    · rw [nothing e item] at left
      cases left

/-! ### Searches that come to their end -/

theorem visit_not_failed (fine : ∀ b, S.Reaches a b → S.Fine b) :
    S.visit fuel a s ≠ .error .failed := by
  induction fuel generalizing a s with
  | zero => exact fun h => by cases h
  | succ fuel ih =>
    intro h
    rcases visit_error h with ⟨_, refused⟩ | ⟨_, run⟩
    · exact refused (fine a .refl).1
    · obtain ⟨done, e, rest, s₁, split, _, stop⟩ := foldlM_error run
      have mem : e ∈ S.items a := by
        rw [split]
        exact List.mem_append_right done List.mem_cons_self
      rcases pass_error stop with ⟨_, unchecked⟩ | ⟨b, leads, inner⟩
      · exact unchecked ((fine a .refl).2 e mem)
      · exact ih (fun c reaches => fine c (reaches.head ⟨e, mem, leads⟩)) inner

/-- The depth of a search is bounded by the number of nodes that have items. -/
theorem visit_not_fuel [DecidableEq N] (lawful : S.Lawful) {nodes : Finset N}
    (finite : ∀ a, a ∉ nodes → S.items a = [])
    (enough : (nodes \ s.visited.toFinset).card + 2 ≤ fuel) : S.visit fuel a s ≠ .error .fuel := by
  induction fuel generalizing a s with
  | zero => omega
  | succ fuel ih =>
    intro h
    rcases visit_error h with ⟨no, _⟩ | ⟨unseen, run⟩
    · cases no
    · obtain ⟨done, e, rest, s₁, split, before, stop⟩ := foldlM_error run
      have node : a ∈ nodes := by
        by_contra other
        rw [finite a other] at split
        simp at split
      have unvisited : a ∉ s.visited := by
        intro mem
        exact unseen (List.any_eq_true.mpr ⟨a, mem, lawful.refl a⟩)
      have more := (fold_grows lawful (fun _ _ _ => visit_grows lawful) before).subset
      have fewer : (nodes \ s₁.visited.toFinset).card < (nodes \ s.visited.toFinset).card := by
        apply Finset.card_lt_card
        rw [Finset.ssubset_iff_of_subset]
        · refine ⟨a, by simp [node, unvisited], ?_⟩
          have : a ∈ s₁.visited := more (List.mem_append_right _ List.mem_cons_self)
          simp [this]
        · intro c mem
          simp only [Finset.mem_sdiff, List.mem_toFinset] at mem ⊢
          exact ⟨mem.1, fun old => mem.2 (more (List.mem_append_left _ old))⟩
      rcases pass_error stop with ⟨no, _⟩ | ⟨b, _, inner⟩
      · cases no
      · exact ih (by simp only [State.mark_visited]; omega) inner

section all

variable [DecidableEq N] {nodes : Finset N}

theorem visitAll_not_fuel (lawful : S.Lawful) (finite : ∀ a, a ∉ nodes → S.items a = [])
    (roots : List N) (s : State N M) : S.visitAll (nodes.card + 2) roots s ≠ .error .fuel := by
  intro h
  obtain ⟨_, a, _, s₁, _, _, stop⟩ := foldlM_error h
  have fewer : (nodes \ s₁.visited.toFinset).card ≤ nodes.card :=
    Finset.card_le_card Finset.sdiff_subset
  exact visit_not_fuel lawful finite (by omega) stop

/-- The searches succeed exactly when every node that they reach is fine. -/
theorem visitAll_ok_iff (lawful : S.Lawful) (finite : ∀ a, a ∉ nodes → S.items a = [])
    (roots : List N) : (∃ s, S.visitAll (nodes.card + 2) roots ⟨[], []⟩ = .ok s) ↔
      ∀ a ∈ roots, ∀ b, S.Reaches a b → S.Fine b := by
  constructor
  · rintro ⟨s, run⟩ a root b reaches
    exact visitAll_fine lawful run root reaches
  · intro fine
    cases run : S.visitAll (nodes.card + 2) roots ⟨[], []⟩ with
    | ok s => exact ⟨s, rfl⟩
    | error x =>
      cases x with
      | fuel => exact absurd run (visitAll_not_fuel lawful finite roots _)
      | failed =>
        obtain ⟨_, a, _, s, split, _, stop⟩ := foldlM_error run
        have root : a ∈ roots := by
          rw [split]
          exact List.mem_append_right _ List.mem_cons_self
        exact absurd stop (visit_not_failed (fine a root))

end all

end Search

end DepthFirst
