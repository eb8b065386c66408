import Mathlib.Data.List.Nodup
import Valor.Lib.DepthFirst
import Valor.Vapor.Patch

/-! The walk over the record of a coroutine's frame, which `collect_coro` starts for each
coroutine. What `walk_rec` writes is kept line by line, without the texts. -/
namespace Valor.Vapor

open DepthFirst

/-- A member of a record. It is `sized` when `INT` can read its `DECL_SIZE`, the `size`. -/
structure Member extends Decl where
  sized : Bool
  offsetAlign : Nat
  selfReference : Bool

/-- Types by number, of which the first `count` may have members. `name` is the `DECL_NAME` of
`TYPE_NAME`; a type may be without, such as the record for a pointer to member function.
`sameType` is `same_type_p`, which tells variants of a type with different qualifiers apart;
all variants share their fields. -/
structure TypeGraph where
  code : Nat → TypeCode
  name : Nat → Option (Option String)
  type : Nat → Nat
  members : Nat → List Member
  mainVariant : Nat → Nat
  sameType : Nat → Nat → Bool
  count : Nat
  finite : ∀ r, count ≤ r → members r = []
  refl : ∀ r, sameType r r
  symm : ∀ r i, sameType r i → sameType i r
  trans : ∀ r i t, sameType r i → sameType i t → sameType r t
  sameMain : ∀ r i, sameType r i → mainVariant r = mainVariant i
  sameMembers : ∀ r i, mainVariant r = mainVariant i → members r = members i

inductive Listing where
  | memberFunPtr | todoMemberPtr | member | memberInteger | todoMember | size | innerStruct | todo
  deriving DecidableEq

/-- A line about a member carries the record and the place of the member in it. -/
inductive Line where
  | struct (indent : String) (r : Nat)
  | alreadySeen (indent : String)
  | listing (indent : String) (r k : Nat) (l : Listing)

/-- The static list of `walk_rec`, and what was written to `clog`. -/
structure Walked where
  visited : List Nat
  log : List Line

def Walked.write (s : Walked) (l : Line) : Walked := { s with log := s.log ++ [l] }

def TypeGraph.memberLine (g : TypeGraph) (t : Nat) : Listing :=
  match g.code t with
  | .pointerType => if g.code (g.type t) = .functionType then .memberFunPtr else .todoMemberPtr
  | .recordType => .member
  | .integerType => .memberInteger
  | _ => .todoMember

/-- The assertion that a member fits the word. The size is written in any case. -/
def Member.fits (ndebug : Bool) (f : Member) : Bool :=
  f.sized ∧ (ndebug ∨ f.offsetAlign ≥ f.fieldBitOffset + f.size)

/-- The body of the loop over `TYPE_FIELDS (r)`. -/
def walkField (ndebug : Bool) (g : TypeGraph)
    (walk : Nat → String → Walked → Except Stop Walked) (r : Nat) (indent : String) (s : Walked)
    (f : Member × Nat) : Except Stop Walked :=
  match f.1.code with
  | .fieldDecl => do
    let s := s.write (.listing indent r f.2 (g.memberLine f.1.type))
    let s ← if g.code f.1.type = .recordType then walk f.1.type (indent ++ "  ") s else .ok s
    if f.1.fits ndebug then .ok (s.write (.listing indent r f.2 .size)) else .error .failed
  | .typeDecl =>
    if f.1.selfReference then .ok s
    else walk f.1.type (indent ++ "  ") (s.write (.listing indent r f.2 .innerStruct))
  | _ => .ok (s.write (.listing indent r f.2 .todo))

def walkRec (ndebug : Bool) (g : TypeGraph) : Nat → Nat → String → Walked → Except Stop Walked
  | 0, _, _, _ => .error .fuel
  | fuel + 1, r, indent, s =>
    if g.code r ≠ .recordType then .error .failed
    -- `DECL_NAME_STR` reads the name of a `TYPE_NAME` that is null
    else if (g.name r).isNone then .error .failed
    else
      let s := s.write (.struct indent r)
      if s.visited.any (g.sameType r) then .ok (s.write (.alreadySeen indent))
      else (g.members r).zipIdx.foldlM (walkField ndebug g (walkRec ndebug g fuel) r indent)
        { s with visited := s.visited ++ [r] }

/-- The walk of `collect_coro`; for the map see `collectCoro`. -/
def Walked.collectCoro (ndebug : Bool) (g : TypeGraph) (fuel : Nat) (s : Walked) (f : Function) :
    Except Stop Walked :=
  if f.coroutine then
    match f.body.bind findCoroFrame with
    | some fr => walkRec ndebug g fuel (g.type fr.type) " " s
    | none => .ok s
  else .ok s

/-- The calls of `collect_coro` in a compilation. -/
def collectAll (ndebug : Bool) (g : TypeGraph) (fuel : Nat) (functions : List Function) :
    Except Stop Walked :=
  functions.foldlM (Walked.collectCoro ndebug g fuel) ⟨[], []⟩

def Function.frame (g : TypeGraph) (f : Function) : Option Nat :=
  if f.coroutine then (f.body.bind findCoroFrame).map fun fr => g.type fr.type else none

def Line.place : Line → Option (Nat × Nat × Listing)
  | .listing _ r k l => some (r, k, l)
  | _ => none

/-- No line about a member of a record is written twice, under whatever variant of it. -/
def ListedOnce (g : TypeGraph) (log : List Line) : Prop :=
  (log.filterMap Line.place).Pairwise fun p p' =>
    g.mainVariant p.1 = g.mainVariant p'.1 → p.2 ≠ p'.2

/-- With enough fuel no more of it makes a difference: the walks come to their end. On the
way no assertion has failed. -/
def WalksSafely (ndebug : Bool) (g : TypeGraph) (functions : List Function) : Prop :=
  ∃ fuel s, (∀ extra, collectAll ndebug g (fuel + extra) functions = .ok s) ∧ ListedOnce g s.log

/-- The types that the walk over the frame goes into: records by value, and nested types. -/
inductive Reached (g : TypeGraph) (frame : Nat) : Nat → Prop where
  | frame : Reached g frame frame
  | member {r : Nat} {f : Member} : Reached g frame r → f ∈ g.members r → f.code = .fieldDecl →
      g.code f.type = .recordType → Reached g frame f.type
  | inner {r : Nat} {f : Member} : Reached g frame r → f ∈ g.members r → f.code = .typeDecl →
      f.selfReference = false → Reached g frame f.type

/-- A record with a name, whose members fit the word. -/
structure Walkable (ndebug : Bool) (g : TypeGraph) (r : Nat) : Prop where
  record : g.code r = .recordType
  named : (g.name r).isSome
  fits : ∀ f ∈ g.members r, f.code = .fieldDecl → f.fits ndebug

/-- The class has no members but its own name, about which nothing is written. -/
def Memberless (g : TypeGraph) (r : Nat) : Prop :=
  ∀ f ∈ g.members r, f.code = .typeDecl ∧ f.selfReference

/-- No class is reached from the frames under two types that the walk tells apart. -/
def OneVariant (g : TypeGraph) (frames : List Nat) : Prop :=
  ∀ frame ∈ frames, ∀ frame' ∈ frames, ∀ r r', Reached g frame r → Reached g frame' r' →
    g.mainVariant r = g.mainVariant r' → g.sameType r r' ∨ Memberless g r

/-! ### The walk as a depth-first search -/

def Member.before (g : TypeGraph) (f : Member) : List Listing :=
  match f.code with
  | .fieldDecl => [g.memberLine f.type]
  | .typeDecl => if f.selfReference then [] else [.innerStruct]
  | _ => [.todo]

def search (ndebug : Bool) (g : TypeGraph) : Search Nat (Member × Nat) (Nat × Listing) where
  same := g.sameType
  items r := (g.members r).zipIdx
  target f :=
    match f.1.code with
    | .fieldDecl => if g.code f.1.type = .recordType then some f.1.type else none
    | .typeDecl => if f.1.selfReference then none else some f.1.type
    | _ => none
  entry r := g.code r = .recordType ∧ (g.name r).isSome
  check f :=
    match f.1.code with
    | .fieldDecl => f.1.fits ndebug
    | _ => true
  before f := (f.1.before g).map (Prod.mk f.2)
  after f :=
    match f.1.code with
    | .fieldDecl => [(f.2, .size)]
    | _ => []

def Walked.marks (s : Walked) : DepthFirst.State Nat (Nat × Listing) :=
  ⟨s.visited, s.log.filterMap Line.place⟩

variable {ndebug : Bool} {g : TypeGraph}

@[simp] theorem marks_struct (s : Walked) (indent : String) (r : Nat) :
    (s.write (.struct indent r)).marks = s.marks := by
  simp [Walked.marks, Walked.write, Line.place]

@[simp] theorem marks_alreadySeen (s : Walked) (indent : String) :
    (s.write (.alreadySeen indent)).marks = s.marks := by
  simp [Walked.marks, Walked.write, Line.place]

@[simp] theorem marks_listing (s : Walked) (indent : String) (r k : Nat) (l : Listing) :
    (s.write (.listing indent r k l)).marks = s.marks.mark r [(k, l)] := by
  simp [Walked.marks, Walked.write, Line.place, DepthFirst.State.mark]

theorem search_lawful (ndebug : Bool) (g : TypeGraph) : (search ndebug g).Lawful where
  refl := g.refl
  symm := g.symm
  items a b same := by simp only [search, g.sameMembers a b (g.sameMain a b same)]
  once a := by
    have places : ∀ f : Member × Nat, ∀ m ∈ (search ndebug g).before f ++ (search ndebug g).after f,
        m.1 = f.2 := by
      intro f m mem
      simp only [search, List.mem_append, List.mem_map] at mem
      rcases mem with ⟨_, _, rfl⟩ | mem
      · rfl
      · split at mem
        · cases List.mem_singleton.mp mem
          rfl
        · cases mem
    refine List.nodup_flatMap.mpr ⟨?_, ?_⟩
    · intro f _
      cases code : f.1.code <;> simp only [search, Member.before, code]
      case fieldDecl =>
        simp only [TypeGraph.memberLine]
        repeat' split
        all_goals simp
      case typeDecl => split <;> simp
      all_goals simp
    · have indices : (g.members a).zipIdx.Pairwise fun f f' => f.2 ≠ f'.2 := by
        rw [← List.pairwise_map (f := Prod.snd) (R := (· ≠ ·)), List.zipIdx_map_snd]
        exact List.nodup_range'
      refine indices.imp ?_
      intro f f' ne m mem mem'
      exact ne ((places f m mem).symm.trans (places f' m mem'))

theorem walkField_marks {walk : Nat → String → Walked → Except Stop Walked}
    {visit : Nat → DepthFirst.State Nat (Nat × Listing) →
      Except Stop (DepthFirst.State Nat (Nat × Listing))}
    (inner : ∀ b indent s, (walk b indent s).map Walked.marks = visit b s.marks)
    (r : Nat) (indent : String) (s : Walked) (f : Member × Nat) :
    (walkField ndebug g walk r indent s f).map Walked.marks =
      (search ndebug g).pass visit r s.marks f := by
  cases code : f.1.code <;>
    simp only [walkField, Search.pass, Search.follow, search, Member.before, code]
  case fieldDecl =>
    have last : ∀ s₁ : Walked,
        Except.map Walked.marks (if f.1.fits ndebug = true then
            .ok (s₁.write (.listing indent r f.2 .size)) else .error Stop.failed) =
          if f.1.fits ndebug = true then .ok (s₁.marks.mark r [(f.2, .size)])
          else .error Stop.failed := by
      intro s₁
      rw [← marks_listing s₁ indent]
      split <;> rfl
    by_cases record : g.code f.1.type = .recordType
    · have walked := inner f.1.type (indent ++ "  ")
        (s.write (.listing indent r f.2 (g.memberLine f.1.type)))
      rw [marks_listing] at walked
      simp only [record, if_true, List.map_cons, List.map_nil, ← walked]
      cases walk f.1.type (indent ++ "  ")
          (s.write (.listing indent r f.2 (g.memberLine f.1.type))) with
      | error x => rfl
      | ok s₁ => exact last s₁
    · simp only [record, if_false, List.map_cons, List.map_nil]
      rw [← marks_listing s indent]
      exact last _
  case typeDecl =>
    cases self : f.1.selfReference with
    | true =>
      simp only [if_true, List.map_nil, DepthFirst.State.mark_nil]
      rfl
    | false =>
      have walked := inner f.1.type (indent ++ "  ") (s.write (.listing indent r f.2 .innerStruct))
      rw [marks_listing] at walked
      simp only [Bool.false_eq_true, if_false, List.map_cons, List.map_nil, ← walked,
        DepthFirst.State.mark_nil]
      cases walk f.1.type (indent ++ "  ") (s.write (.listing indent r f.2 .innerStruct)) with
      | error x => rfl
      | ok s₁ => rfl
  all_goals
    rw [List.map_cons, List.map_nil, ← marks_listing s indent]
    simp only [DepthFirst.State.mark_nil]
    rfl

/-- The list and the places of the lines are those of the search. -/
theorem walkRec_marks (fuel r : Nat) (indent : String) (s : Walked) :
    (walkRec ndebug g fuel r indent s).map Walked.marks =
      (search ndebug g).visit fuel r s.marks := by
  induction fuel generalizing r indent s with
  | zero => rfl
  | succ fuel ih =>
    have seen : (s.write (.struct indent r)).visited.any (g.sameType r) =
        s.marks.visited.any ((search ndebug g).same r) := rfl
    rw [walkRec, Search.visit]
    by_cases record : g.code r = .recordType
    · by_cases unnamed : (g.name r).isNone = true
      · have refused : ¬ (search ndebug g).entry r = true := by
          simp [search, Option.isNone_iff_eq_none.mp unnamed]
        rw [if_neg (not_not.mpr record), if_pos unnamed, if_pos refused]
        rfl
      have entered : (search ndebug g).entry r = true := by
        obtain ⟨name, named⟩ := Option.ne_none_iff_exists'.mp fun none =>
          unnamed (Option.isNone_iff_eq_none.mpr none)
        simp [search, record, named]
      simp only [record, unnamed, entered, ne_eq, not_true_eq_false, if_false, seen]
      by_cases visited : s.marks.visited.any ((search ndebug g).same r) = true
      · rw [if_pos visited, if_pos visited]
        simp [Except.map]
      · rw [if_neg visited, if_neg visited]
        refine (foldlM_map Walked.marks (fun s f _ => walkField_marks ih r indent s f) _).trans ?_
        congr 1
        simp [Walked.marks, Walked.write, Line.place]
    · have refused : ¬ (search ndebug g).entry r = true := by simp [search, record]
      rw [if_pos record, if_pos refused]
      rfl

/-! ### The calls of `collect_coro` -/

theorem collectCoro_frame (fuel : Nat) (s : Walked) (f : Function) :
    s.collectCoro ndebug g fuel f =
      match f.frame g with
      | some r => walkRec ndebug g fuel r " " s
      | none => .ok s := by
  rw [Walked.collectCoro, Function.frame]
  split
  · cases f.body.bind findCoroFrame with
    | some fr => rfl
    | none => rfl
  · rfl

theorem collectAll_marks (ndebug : Bool) (g : TypeGraph) (fuel : Nat) (functions : List Function) :
    (collectAll ndebug g fuel functions).map Walked.marks =
      (search ndebug g).visitAll fuel (functions.filterMap (Function.frame g)) ⟨[], []⟩ := by
  rw [Search.visitAll, List.foldlM_filterMap]
  refine foldlM_map Walked.marks (fun s f _ => ?_) ⟨[], []⟩
  rw [collectCoro_frame]
  cases f.frame g with
  | some r => exact walkRec_marks fuel r " " s
  | none => rfl

/-! ### What the walk goes into -/

theorem mem_items {r : Nat} {f : Member} :
    f ∈ g.members r ↔ ∃ k, (f, k) ∈ (search ndebug g).items r := by
  have fields : ((search ndebug g).items r).map Prod.fst = g.members r := List.zipIdx_map_fst 0 _
  rw [← fields]
  simp

theorem target_iff {f : Member × Nat} {t : Nat} : (search ndebug g).target f = some t ↔
    (f.1.code = .fieldDecl ∧ g.code f.1.type = .recordType ∨
      f.1.code = .typeDecl ∧ f.1.selfReference = false) ∧ f.1.type = t := by
  cases code : f.1.code <;> simp [search, code]

theorem reached_iff {frame r : Nat} : (search ndebug g).Reaches frame r ↔ Reached g frame r := by
  constructor
  · intro reaches
    induction reaches with
    | refl => exact .frame
    | tail _ leads ih =>
      obtain ⟨⟨f, k⟩, mem, target⟩ := leads
      obtain ⟨⟨field, record⟩ | ⟨type, other⟩, rfl⟩ := target_iff.mp target
      · exact .member ih (mem_items.mpr ⟨k, mem⟩) field record
      · exact .inner ih (mem_items.mpr ⟨k, mem⟩) type other
  · intro reached
    induction reached with
    | frame => exact .refl
    | member _ mem field record ih =>
      obtain ⟨k, mem⟩ := mem_items.mp mem
      exact ih.tail ⟨_, mem, target_iff.mpr ⟨.inl ⟨field, record⟩, rfl⟩⟩
    | inner _ mem type other ih =>
      obtain ⟨k, mem⟩ := mem_items.mp mem
      exact ih.tail ⟨_, mem, target_iff.mpr ⟨.inr ⟨type, other⟩, rfl⟩⟩

theorem check_iff {f : Member × Nat} : (search ndebug g).check f = true ↔
    (f.1.code = .fieldDecl → f.1.fits ndebug = true) := by
  cases code : f.1.code <;> simp [search, code]

theorem fine_iff {r : Nat} : (search ndebug g).Fine r ↔ Walkable ndebug g r := by
  constructor
  · rintro ⟨entered, checked⟩
    obtain ⟨record, named⟩ := of_decide_eq_true entered
    refine ⟨record, named, fun f mem field => ?_⟩
    obtain ⟨k, mem⟩ := mem_items.mp mem
    exact check_iff.mp (checked (f, k) mem) field
  · rintro ⟨record, named, fits⟩
    exact ⟨decide_eq_true ⟨record, named⟩, fun f mem =>
      check_iff.mpr (fits f.1 (mem_items.mpr ⟨f.2, mem⟩))⟩

theorem leaves_iff {f : Member × Nat} : (search ndebug g).Leaves f = [] ↔
    f.1.code = .typeDecl ∧ f.1.selfReference := by
  cases code : f.1.code <;> simp [search, Search.Leaves, Member.before, code]

theorem empty_iff {r : Nat} : (∀ f ∈ (search ndebug g).items r, (search ndebug g).Leaves f = []) ↔
    Memberless g r := by
  constructor
  · intro nothing f mem
    obtain ⟨k, mem⟩ := mem_items.mp mem
    exact leaves_iff.mp (nothing (f, k) mem)
  · exact fun empty f mem => leaves_iff.mpr (empty f.1 (mem_items.mpr ⟨f.2, mem⟩))

theorem search_finite (ndebug : Bool) (g : TypeGraph) :
    ∀ r, r ∉ Finset.range g.count → (search ndebug g).items r = [] := by
  intro r out
  simp only [Finset.mem_range, not_lt] at out
  simp [search, g.finite r out]

/-! ### Fuel -/

theorem walkField_more {walk walk' : Nat → String → Walked → Except Stop Walked}
    (inner : ∀ b indent s, walk b indent s ≠ .error .fuel → walk' b indent s = walk b indent s)
    {r : Nat} {indent : String} {s : Walked} {f : Member × Nat}
    (h : walkField ndebug g walk r indent s f ≠ .error .fuel) :
    walkField ndebug g walk' r indent s f = walkField ndebug g walk r indent s f := by
  cases code : f.1.code <;> simp only [walkField, code] at h ⊢
  case fieldDecl =>
    by_cases record : g.code f.1.type = .recordType
    · simp only [record, if_true] at h ⊢
      rw [inner _ _ _ fun stop => h (bind_error.mpr (.inl stop))]
    · simp only [record, if_false]
  case typeDecl =>
    cases self : f.1.selfReference with
    | true => rfl
    | false =>
      simp only [self, Bool.false_eq_true, if_false] at h ⊢
      exact inner _ _ _ h

theorem walkRec_more {fuel r : Nat} {indent : String} {s : Walked}
    (h : walkRec ndebug g fuel r indent s ≠ .error .fuel) (extra : Nat) :
    walkRec ndebug g (fuel + extra) r indent s = walkRec ndebug g fuel r indent s := by
  induction fuel generalizing r indent s with
  | zero => exact absurd rfl h
  | succ fuel ih =>
    rw [Nat.add_right_comm]
    simp only [walkRec] at h ⊢
    split
    · rfl
    · rename_i record
      rw [if_neg record] at h
      split
      · rfl
      · rename_i named
        rw [if_neg named] at h
        split
        · rfl
        · rename_i fresh
          rw [if_neg fresh] at h
          refine foldlM_more (fun s f settled => walkField_more ?_ settled) h
          exact fun b indent s inner => ih inner

/-! ### All calls -/

/-- Enough for every compilation: as deep as types can lie in one another. -/
def enough (g : TypeGraph) : Nat := (Finset.range g.count).card + 2

theorem collectAll_not_fuel (ndebug : Bool) (g : TypeGraph) (functions : List Function) :
    collectAll ndebug g (enough g) functions ≠ .error .fuel := by
  intro stop
  have marks := collectAll_marks ndebug g (enough g) functions
  rw [stop] at marks
  exact Search.visitAll_not_fuel (search_lawful ndebug g) (search_finite ndebug g) _ _ marks.symm

/-- Every walk comes to its end, at a failed assertion or behind the last call. -/
theorem collectAll_ends (ndebug : Bool) (g : TypeGraph) (functions : List Function) (extra : Nat) :
    collectAll ndebug g (enough g + extra) functions =
      collectAll ndebug g (enough g) functions := by
  refine foldlM_more (fun s f settled => ?_) (collectAll_not_fuel ndebug g functions)
  rw [collectCoro_frame] at settled
  rw [collectCoro_frame, collectCoro_frame]
  cases frame : f.frame g with
  | some r =>
    simp only [frame] at settled
    exact walkRec_more settled extra
  | none => rfl

theorem collectAll_once_iff {fuel : Nat} {functions : List Function} {s : Walked}
    (run : collectAll ndebug g fuel functions = .ok s) :
    ListedOnce g s.log ↔ OneVariant g (functions.filterMap (Function.frame g)) := by
  have marks := collectAll_marks ndebug g fuel functions
  rw [run] at marks
  have once := Search.visitAll_once_iff (search_lawful ndebug g) g.trans g.sameMain
    (fun r i one => by simp only [search, g.sameMembers r i one]) marks.symm
  simp only [reached_iff, empty_iff] at once
  exact once

theorem collectAll_ok_iff (ndebug : Bool) (g : TypeGraph) (functions : List Function) :
    (∃ s, collectAll ndebug g (enough g) functions = .ok s) ↔
      ∀ frame ∈ functions.filterMap (Function.frame g), ∀ r, Reached g frame r →
        Walkable ndebug g r := by
  have marks := collectAll_marks ndebug g (enough g) functions
  have walked : (∃ s, collectAll ndebug g (enough g) functions = .ok s) ↔
      ∃ s, (search ndebug g).visitAll (enough g) (functions.filterMap (Function.frame g))
        ⟨[], []⟩ = .ok s := by
    rw [← marks]
    cases collectAll ndebug g (enough g) functions with
    | ok s => exact ⟨fun _ => ⟨s.marks, rfl⟩, fun _ => ⟨s, rfl⟩⟩
    | error x =>
      constructor
      · rintro ⟨_, h⟩
        cases h
      · rintro ⟨_, h⟩
        cases h
  rw [walked, enough, Search.visitAll_ok_iff (search_lawful ndebug g) (search_finite ndebug g)]
  simp only [reached_iff, fine_iff]

/-- The walks are safe exactly when they go into nothing but records with names, all members
of these fit the word, and no record with members comes up with other qualifiers again. -/
theorem walksSafely_iff (ndebug : Bool) (g : TypeGraph) (functions : List Function) :
    WalksSafely ndebug g functions ↔
      (∀ frame ∈ functions.filterMap (Function.frame g), ∀ r, Reached g frame r →
        Walkable ndebug g r) ∧ OneVariant g (functions.filterMap (Function.frame g)) := by
  rw [← collectAll_ok_iff]
  constructor
  · rintro ⟨fuel, s, run, once⟩
    refine ⟨⟨s, ?_⟩, (collectAll_once_iff (run 0)).mp once⟩
    rw [← collectAll_ends ndebug g functions fuel, Nat.add_comm]
    exact run (enough g)
  · rintro ⟨⟨s, run⟩, one⟩
    exact ⟨enough g, s, fun extra => (collectAll_ends ndebug g functions extra).trans run,
      (collectAll_once_iff run).mpr one⟩

/-! A coroutine that holds an object, in whose type there is a name for the type `t`: 1 is
the record of the frame, 2 that of the object, 3 an enumeration, 5 the record 2 with `const`. -/

def nestedType (t : Nat) : TypeGraph where
  code
    | 0 => .pointerType
    | 1 | 2 | 5 => .recordType
    | 3 => .enumeralType
    | _ => .integerType
  name
    | 0 => none
    | _ => some (some "t")
  type
    | 0 => 1
    | _ => 0
  members
    | 1 => [⟨⟨.fieldDecl, some "x_1_1", 2, 32, 16, 0⟩, true, 128, false⟩]
    | 2 | 5 => [⟨⟨.typeDecl, some "t", t, 0, 0, 0⟩, true, 0, false⟩,
        ⟨⟨.fieldDecl, some "k", 4, 32, 0, 0⟩, true, 128, false⟩]
    | _ => []
  mainVariant
    | 5 => 2
    | r => r
  sameType r i := r == i
  count := 6
  finite r := by
    intro le
    match r with
    | 0 | 3 | 4 => rfl
    | 1 | 2 | 5 => omega
    | r + 6 => rfl
  refl := by simp
  symm := by simp
  trans := by simp
  sameMain := by simp
  sameMembers r i := by
    intro one
    split at one <;> split at one <;> cases one <;> rfl

example : (collectAll false (nestedType 1) 4 [function "f" true (.decl (framePtr 0))]).map
    Walked.log = .ok [.struct " " 1, .listing " " 1 0 .member, .struct "   " 2,
      .listing "   " 2 0 .innerStruct, .struct "     " 1, .alreadySeen "     ",
      .listing "   " 2 1 .memberInteger, .listing "   " 2 1 .size, .listing " " 1 0 .size] := rfl

example : (collectAll false (nestedType 5) 4 [function "f" true (.decl (framePtr 0))]).map
    (fun s => (s.log.filterMap Line.place).filter (·.2.2 = .memberInteger)) =
      .ok [(5, 1, .memberInteger), (2, 1, .memberInteger)] := rfl

/-- The argument of `walk_rec` for a nested type may be no record. -/
theorem not_walksSafely : ¬ ∀ (ndebug : Bool) (g : TypeGraph) (functions : List Function),
    WalksSafely ndebug g functions := by
  intro always
  obtain ⟨fuel, s, run, _⟩ := always true (nestedType 3) [function "f" true (.decl (framePtr 0))]
  have stops : collectAll true (nestedType 3) (fuel + 3)
      [function "f" true (.decl (framePtr 0))] = .error .failed := rfl
  cases stops.symm.trans (run 3)

end Valor.Vapor
