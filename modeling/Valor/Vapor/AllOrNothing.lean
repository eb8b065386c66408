import Valor.Vapor.Patch

/-! Units whose `seri` and `resi` are missing, or are not what the patch takes them for. -/
namespace Valor.Vapor

namespace Expr

variable {e o o' new : Expr} {i : Nat}

theorem setOperand_operand (h : e.operand i = some o) (o' : Expr) :
    ∃ e', e.setOperand i o' = some e' ∧ e'.operand i = some o' ∧ e'.code = e.code := by
  cases e with
  | cst _ | decl _ => cases h
  | unary c s e =>
    match i with
    | 0 => exact ⟨_, rfl, rfl, rfl⟩
    | _ + 1 => cases h
  | binary c s a b =>
    match i with
    | 0 | 1 => exact ⟨_, rfl, rfl, rfl⟩
    | _ + 2 => cases h

/-- The second operand at the end of a path is replaced; the rest of the path stays. -/
theorem setAt_spec (path : List Nat) {c : ExprCode} {s : Nat} {a b : Expr}
    (h : e.at' path = some (.binary c s a b)) (new : Expr) :
    ∃ e', e.setAt (path ++ [1]) new = some e' ∧ e'.at' path = some (.binary c s a new) ∧
      e'.code = e.code := by
  induction path generalizing e with
  | nil =>
    cases h
    exact ⟨_, rfl, rfl, rfl⟩
  | cons i path ih =>
    obtain ⟨o, first, rest⟩ := Option.bind_eq_some_iff.mp h
    obtain ⟨o', set, place, _⟩ := ih rest
    obtain ⟨e', up, down, code⟩ := setOperand_operand first o'
    exact ⟨e', by simp [setAt, first, set, up], by simp [at', down, place], code⟩

end Expr

/-- A constant that is added to a pointer at the end of the path. -/
def OffsetAt (path : List Nat) (body : Expr) (k : Nat) : Prop :=
  ∃ size ptr, body.at' path = some (.binary .pointerPlusExpr size ptr (.cst k))

def seriPath : List Nat := [0, 1, 0, 0]

def resiPath : List Nat := [0, 0, 0, 0, 0, 0]

/-- The operand of the function `n` that the path leads to is the offset now, whatever it
was. -/
def Overwritten (n : String) (path : List Nat) (globals globals' : List Function)
    (offset : Nat) : Prop :=
  ∃ body body', BodyOf globals n body ∧ body.setAt (path ++ [1]) (.cst offset) = some body' ∧
    BodyOf globals' n body'

/-- The offset constant of the function `n` is replaced. -/
def Patched (n : String) (path : List Nat) (globals globals' : List Function) (offset : Nat) :
    Prop :=
  Overwritten n path globals globals' offset ∧ ∃ body k, BodyOf globals n body ∧ OffsetAt path body k

/-- The member that `coro_member_offset` looks for is there. -/
def Found (types : Types) (frame : Decl) : Prop :=
  ∃ f ∈ (types (types frame.type).type).fields, f.code = .fieldDecl ∧ f.nameStr = resumeIndex

/-- What one iteration may do: replace both constants by the offset of a member, or leave
everything as it was. -/
def BothOrNone (types : Types) (frame : Decl) (globals globals' : List Function) (offset : Nat) :
    Prop :=
  Patched "seri" seriPath globals globals' offset ∧
      Patched "resi" resiPath globals globals' offset ∧ Found types frame ∨
    ¬ Overwritten "seri" seriPath globals globals' offset ∧
      ¬ Overwritten "resi" resiPath globals globals' offset ∧ globals' = globals

/-- Each iteration comes to its end, and has done both or none. -/
def AllOrNothing (ndebug : Bool) (types : Types) : Coros → List Function → Prop
  | [], _ => True
  | c :: coros, globals => ∃ globals' offset,
      patchOne ndebug types globals c.2 = some globals' ∧
      coroMemberOffset ndebug types c.2 resumeIndex = some offset ∧
      BothOrNone types c.2 globals globals' offset ∧ AllOrNothing ndebug types coros globals'

/-- The first function named `seri` has a body as the patch takes it. -/
def SeriThere (globals : List Function) : Prop :=
  ∃ body ie k, BodyOf globals "seri" body ∧ body.operand 0 = some ie ∧
    ie.code = some .initExpr ∧ OffsetAt seriPath body k

def ResiThere (globals : List Function) : Prop :=
  ∃ body k, BodyOf globals "resi" body ∧ OffsetAt resiPath body k

/-- The frame is a record with a resume index, which is as it is asserted to be. -/
def HasIndex (ndebug : Bool) (types : Types) (frame : Decl) : Prop :=
  (types (types frame.type).type).code = .recordType ∧
    ∃ f, (types (types frame.type).type).fields.find?
        (fun f => f.code = .fieldDecl ∧ f.nameStr = resumeIndex) = some f ∧
      (ndebug = true ∨ f.size = 16 ∧ f.fieldBitOffset % 8 = 0)

variable {ndebug : Bool} {types : Types} {globals globals' : List Function} {frame : Decl}
  {offset : Nat} {coros : Coros}

theorem allOrNothing_run (h : AllOrNothing ndebug types coros globals) :
    ∃ globals', patchSeri ndebug types coros globals = some globals' := by
  induction coros generalizing globals with
  | nil => exact ⟨globals, rfl⟩
  | cons c coros ih =>
    obtain ⟨globals₁, offset, one, _, _, rest⟩ := h
    obtain ⟨globals', run⟩ := ih rest
    refine ⟨globals', ?_⟩
    simp only [patchSeri, List.foldlM_cons, one, Option.bind_eq_bind, Option.bind_some]
    exact run

theorem hasIndex_iff : HasIndex ndebug types frame ↔
    Found types frame ∧ ∃ offset, coroMemberOffset ndebug types frame resumeIndex = some offset := by
  constructor
  · rintro ⟨record, f, found, asserted⟩
    have accepted := List.find?_some found
    simp only [decide_eq_true_eq] at accepted
    refine ⟨⟨f, List.mem_of_find?_eq_some found, accepted⟩,
      (f.fieldOffset + f.fieldBitOffset / 8) % 2 ^ 16, ?_⟩
    simp only [coroMemberOffset, record, found, asserted, ne_eq, not_true_eq_false, if_false,
      if_true]
  · rintro ⟨⟨f, mem, isField, name⟩, offset, reported⟩
    simp only [coroMemberOffset] at reported
    split at reported
    · cases reported
    · rename_i record
      refine ⟨not_not.mp record, ?_⟩
      split at reported
      · rename_i none
        have := List.find?_eq_none.mp none f mem
        simp [isField, name] at this
      · rename_i g found
        split at reported
        · rename_i asserted
          exact ⟨g, found, asserted⟩
        · cases reported

/-! ### The bodies -/

section bodies

variable {body body' : Expr} {k : Nat}

theorem patchSeriBody_cases (h : patchSeriBody body offset = some body') :
    (∃ ie, body.operand 0 = some ie ∧ ie.code = some .initExpr) ∧
      body.setAt (seriPath ++ [1]) (.cst offset) = some body' := by
  simp only [patchSeriBody, Option.bind_eq_bind] at h
  obtain ⟨ie, first, h⟩ := Option.bind_eq_some_iff.mp h
  by_cases code : ie.code = some .initExpr
  · refine ⟨⟨ie, first, code⟩, ?_⟩
    rw [if_neg (not_not.mpr code)] at h
    obtain ⟨ptrpls, _, h⟩ := Option.bind_eq_some_iff.mp h
    by_cases plus : ptrpls.code = some .pointerPlusExpr
    · rw [if_neg (not_not.mpr plus)] at h
      exact h
    · rw [if_pos plus] at h
      cases h
  · rw [if_pos code] at h
    cases h

theorem patchSeriBody_spec {ie : Expr} (first : body.operand 0 = some ie)
    (code : ie.code = some .initExpr) (at_offset : OffsetAt seriPath body k) (offset : Nat) :
    ∃ body' ie', patchSeriBody body offset = some body' ∧
      body.setAt (seriPath ++ [1]) (.cst offset) = some body' ∧ body'.operand 0 = some ie' ∧
      ie'.code = some .initExpr ∧ OffsetAt seriPath body' offset := by
  obtain ⟨size, ptr, place⟩ := at_offset
  simp only [seriPath, Expr.at', first, Option.bind_some] at place
  obtain ⟨ie', set, place', code'⟩ := Expr.setAt_spec [1, 0, 0] place (.cst offset)
  obtain ⟨body', up, down, _⟩ := Expr.setOperand_operand first ie'
  have whole : body.setAt (seriPath ++ [1]) (.cst offset) = some body' := by
    simp only [seriPath, List.cons_append, List.nil_append, Expr.setAt, first,
      Option.bind_eq_bind, Option.bind_some] at set ⊢
    rw [set]
    exact up
  refine ⟨body', ie', ?_, whole, down, code'.trans code, size, ptr, ?_⟩
  · simp only [patchSeriBody, first, code, Option.bind_eq_bind, Option.bind_some, ne_eq,
      not_true_eq_false, if_false]
    rw [show ie.at' [1, 0, 0] = _ from place]
    exact whole
  · rw [← place']
    simp only [seriPath, Expr.at', down, Option.bind_some]

theorem patchResiBody_spec (at_offset : OffsetAt resiPath body k) (offset : Nat) :
    ∃ body', patchResiBody body offset = some body' ∧ OffsetAt resiPath body' offset := by
  obtain ⟨size, ptr, place⟩ := at_offset
  obtain ⟨body', set, place', _⟩ := Expr.setAt_spec resiPath place (.cst offset)
  exact ⟨body', set, size, ptr, place'⟩

end bodies

/-! ### One iteration -/

theorem patchFn_cases {n : String} {patch : Expr → Option Expr}
    (h : patchFn globals n patch = some globals') :
    ∃ body body', BodyOf globals n body ∧ patch body = some body' ∧ BodyOf globals' n body' ∧
      ∀ n' b, n' ≠ n → BodyOf globals n' b → BodyOf globals' n' b := by
  have ran := h
  simp only [patchFn, Option.bind_eq_bind, Option.bind_eq_some_iff] at ran
  obtain ⟨i, hi, f, hf, body, hb, body', patched, _⟩ := ran
  have old : BodyOf globals n body := ⟨i, f, hi, hf, hb⟩
  obtain ⟨globals₁, h₁, new, keep⟩ := patchFn_spec patch old patched
  cases h.symm.trans h₁
  exact ⟨body, body', old, patched, new,
    fun n' b ne there => keep n' b (getGlobalFn_ne ne there) there⟩

/-- A body that is there after the patch of another function was there before. -/
theorem BodyOf.back {n n' : String} {patch : Expr → Option Expr} {b : Expr} (ne : n' ≠ n)
    (h : patchFn globals n patch = some globals') (there : BodyOf globals' n' b) :
    BodyOf globals n' b := by
  simp only [patchFn, Option.bind_eq_bind, Option.bind_eq_some_iff] at h
  obtain ⟨i, hi, f, hf, body, hb, body', patched, set⟩ := h
  cases Option.some.inj set
  have names : ∀ n, getGlobalFn (globals.set i { f with body := some body' }) n =
      getGlobalFn globals n := getGlobalFn_set hf rfl
  obtain ⟨j, g, hj, hg, hb'⟩ := there
  rw [names] at hj
  have other : i ≠ j := by
    rintro rfl
    have bound : i < globals.length := (List.getElem?_eq_some_iff.mp hf).1
    rw [List.getElem?_set_self bound] at hg
    cases Option.some.inj hg
    have name := getGlobalFn_name hi hf
    exact ne ((getGlobalFn_name ((names n').trans hj) (List.getElem?_set_self bound)).symm.trans
      name)
  rw [List.getElem?_set_ne other] at hg
  exact ⟨j, g, hj, hg, hb'⟩

/-- What an iteration that comes to its end has overwritten. -/
theorem patchOne_cases (h : patchOne ndebug types globals frame = some globals')
    (reported : coroMemberOffset ndebug types frame resumeIndex = some offset) :
    (∃ body ie, BodyOf globals "seri" body ∧ body.operand 0 = some ie ∧
        ie.code = some .initExpr) ∧
      Overwritten "seri" seriPath globals globals' offset ∧
      Overwritten "resi" resiPath globals globals' offset := by
  simp only [patchOne, reported, Option.bind_eq_bind, Option.bind_some,
    Option.bind_eq_some_iff] at h
  obtain ⟨globals₁, seri, resi⟩ := h
  obtain ⟨body, body', old, patched, new, _⟩ := patchFn_cases seri
  obtain ⟨_, _, old', patched', new', keep⟩ := patchFn_cases resi
  obtain ⟨⟨ie, first, code⟩, set⟩ := patchSeriBody_cases patched
  refine ⟨⟨body, ie, old, first, code⟩, ?_, ?_⟩
  · exact ⟨body, body', old, set, keep "seri" _ (by decide) new⟩
  · exact ⟨_, _, old'.back (by decide) seri, patched', new'⟩

theorem bothOrNone_needs (h : patchOne ndebug types globals frame = some globals')
    (reported : coroMemberOffset ndebug types frame resumeIndex = some offset)
    (done : BothOrNone types frame globals globals' offset) :
    HasIndex ndebug types frame ∧ SeriThere globals ∧ ResiThere globals := by
  obtain ⟨⟨body, ie, there, first, code⟩, seri, _⟩ := patchOne_cases h reported
  rcases done with ⟨⟨_, body', k, there', at_offset⟩, ⟨_, resi⟩, found⟩ | ⟨untouched, _⟩
  · cases there.unique there'
    exact ⟨hasIndex_iff.mpr ⟨found, offset, reported⟩,
      ⟨body, ie, k, there, first, code, at_offset⟩, resi⟩
  · exact absurd seri untouched

theorem bothOrNone_works (index : HasIndex ndebug types frame) (seri : SeriThere globals)
    (resi : ResiThere globals) : ∃ globals' offset,
      patchOne ndebug types globals frame = some globals' ∧
      coroMemberOffset ndebug types frame resumeIndex = some offset ∧
      BothOrNone types frame globals globals' offset ∧ SeriThere globals' ∧ ResiThere globals' := by
  obtain ⟨found, offset, reported⟩ := hasIndex_iff.mp index
  obtain ⟨s, ie, k, s_old, first, code, s_at⟩ := seri
  obtain ⟨r, k', r_old, r_at⟩ := resi
  obtain ⟨s', ie', s_patched, _, first', code', s_at'⟩ := patchSeriBody_spec first code s_at offset
  obtain ⟨r', r_patched, r_at'⟩ := patchResiBody_spec r_at offset
  obtain ⟨globals₁, h₁, s_new, keep₁⟩ := patchFn_spec (patchSeriBody · offset) s_old s_patched
  have r_mid := keep₁ "resi" _ (getGlobalFn_ne (by decide) r_old) r_old
  obtain ⟨globals', h₂, r_new, keep₂⟩ := patchFn_spec (patchResiBody · offset) r_mid r_patched
  have s_end := keep₂ "seri" _ (getGlobalFn_ne (by decide) s_new) s_new
  have run : patchOne ndebug types globals frame = some globals' := by
    simp only [patchOne, reported, Option.bind_eq_bind, Option.bind_some, h₁, h₂]
  obtain ⟨_, s_set, r_set⟩ := patchOne_cases run reported
  refine ⟨globals', offset, run, reported, .inl ⟨⟨s_set, s, k, s_old, s_at⟩,
    ⟨r_set, r, k', r_old, r_at⟩, found⟩, ?_, ?_⟩
  · exact ⟨s', ie', offset, s_end, first', code', s_at'⟩
  · exact ⟨r', offset, r_new, r_at'⟩

/-! ### The loop -/

theorem allOrNothing_iff : AllOrNothing ndebug types coros globals ↔
    (coros = [] ∨ SeriThere globals ∧ ResiThere globals) ∧
      ∀ c ∈ coros, HasIndex ndebug types c.2 := by
  induction coros generalizing globals with
  | nil => simp [AllOrNothing]
  | cons c coros ih =>
    constructor
    · rintro ⟨globals', offset, one, reported, done, rest⟩
      obtain ⟨index, there⟩ := bothOrNone_needs one reported done
      have tail := (ih.mp rest).2
      exact ⟨.inr there, List.forall_mem_cons.mpr ⟨index, tail⟩⟩
    · rintro ⟨there, indices⟩
      obtain ⟨seri, resi⟩ := there.resolve_left (List.cons_ne_nil c coros)
      obtain ⟨index, tail⟩ := List.forall_mem_cons.mp indices
      obtain ⟨globals', offset, one, reported, done, there'⟩ := bothOrNone_works index seri resi
      exact ⟨globals', offset, one, reported, done, ih.mpr ⟨.inr there', tail⟩⟩

/-- For any order of the map: the patch is all or nothing exactly when both accessors are
as it takes them, and each frame has its index. -/
theorem patchSeri_all_or_nothing_iff (ndebug : Bool) (u : Unit) {order : Coros}
    (any : order.Perm u.coros) :
    AllOrNothing ndebug u.types order u.globals ↔
      (u.coros = [] ∨ SeriThere u.globals ∧ ResiThere u.globals) ∧
        ∀ c ∈ u.coros, HasIndex ndebug u.types c.2 := by
  rw [allOrNothing_iff]
  have empty : order = [] ↔ u.coros = [] :=
    ⟨fun h => (h ▸ any).nil_eq.symm, fun h => (h ▸ any).eq_nil⟩
  rw [empty]
  simp only [any.mem_iff]

/-- The accessors of `toy.cc`, in any other order of the map as well. -/
theorem twoCoroutines_all_or_nothing :
    AllOrNothing false (twoCoroutines 34 34).types [(2, framePtr 0), (3, framePtr 2)]
      (twoCoroutines 34 34).globals := by
  obtain ⟨seri, resi⟩ := twoCoroutines_accessors 34 34
  refine (patchSeri_all_or_nothing_iff false (twoCoroutines 34 34) (.swap _ _ _)).mpr
    ⟨.inr ⟨?_, ?_⟩, ?_⟩
  · exact ⟨_, _, 3, seri, rfl, rfl, 8, _, rfl⟩
  · exact ⟨_, 3, resi, 8, _, rfl⟩
  · intro c hc
    rcases mem_twoCoroutines.mp hc with rfl | rfl <;>
      exact ⟨rfl, _, rfl, .inr (by decide)⟩

/-- The same unit without a `resi`. -/
def withoutResi : Unit :=
  { twoCoroutines 34 34 with globals := [function "seri" false (seriBody 3)] }

/-- `resi` is dereferenced unseen, when `seri` is patched already. -/
theorem not_all_or_nothing : ¬ ∀ (ndebug : Bool) (u : Unit) (order : Coros),
    order.Perm u.coros → AllOrNothing ndebug u.types order u.globals := by
  intro always
  obtain ⟨globals', run⟩ := allOrNothing_run (always false withoutResi _ (.refl _))
  have stops : patchSeri false withoutResi.types withoutResi.coros withoutResi.globals = none := rfl
  cases stops.symm.trans run

end Valor.Vapor
