import Valor.Vapor.Tree

/-! The patching of the global accessors `seri` and `resi` with the offset of
`_Coro_resume_index`, once for each coroutine of the unit. -/
namespace Valor.Vapor

open Bytes

/-- `coro_member_offset`: `none` is a failed assertion, 65535 a member not found. -/
def coroMemberOffset (ndebug : Bool) (types : Types) (r : Decl) (n : String) : Option Nat :=
  let record := types (types r.type).type
  if record.code ≠ .recordType then none
  else match record.fields.find? fun f => f.code = .fieldDecl ∧ f.nameStr = n with
    | none => some (2 ^ 16 - 1)
    | some f =>
      if ndebug ∨ f.size = 16 ∧ f.fieldBitOffset % 8 = 0 then
        some ((f.fieldOffset + f.fieldBitOffset / 8) % 2 ^ 16)
      else none

def findCoroFrame (body : Expr) : Option Decl :=
  body.findDecl fun d => d.code = .varDecl ∧ d.nameStr = "_Coro_frameptr"

/-- The map from functions, by number, to frames. -/
abbrev Coros := List (Nat × Decl)

def collectCoro (coros : Coros) (fun' : Nat) (f : Function) : Coros :=
  if f.coroutine then
    match f.body.bind findCoroFrame with
    | some fr => (fun', fr) :: coros.filter (·.1 ≠ fun')
    | none => coros
  else coros

/-- A translation unit: the chain of global declarations, and the functions handed to
`collect_coro` with their numbers. -/
structure Unit where
  types : Types
  globals : List Function
  functions : List (Nat × Function)

def Unit.coros (u : Unit) : Coros :=
  u.functions.foldl (fun coros f => collectCoro coros f.1 f.2) []

def getGlobalFn (globals : List Function) (n : String) : Option Nat :=
  globals.findIdx? fun f => f.decl.code = .functionDecl ∧ f.decl.nameStr = n

def resumeIndex : String := "_Coro_resume_index"

/-- The body of `seri` with the constant at `return_expr, init_expr, indirect_ref, nop_expr,
pointer_plus_expr` replaced. -/
def patchSeriBody (body : Expr) (offset : Nat) : Option Expr := do
  let ie ← body.operand 0
  if ie.code ≠ some .initExpr then none
  let ptrpls ← ie.at' [1, 0, 0]
  if ptrpls.code ≠ some .pointerPlusExpr then none
  body.setAt [0, 1, 0, 0, 1] (.cst offset)

def patchResiBody (body : Expr) (offset : Nat) : Option Expr :=
  body.setAt [0, 0, 0, 0, 0, 0, 1] (.cst offset)

/-- The function found under a name gets a patched body; a missing function or body is a
null pointer. -/
def patchFn (globals : List Function) (n : String) (patch : Expr → Option Expr) :
    Option (List Function) := do
  let i ← getGlobalFn globals n
  let f ← globals[i]?
  let body ← f.body
  let body' ← patch body
  return globals.set i { f with body := some body' }

def patchOne (ndebug : Bool) (types : Types) (globals : List Function) (frame : Decl) :
    Option (List Function) := do
  let offset ← coroMemberOffset ndebug types frame resumeIndex
  let globals ← patchFn globals "seri" (patchSeriBody · offset)
  patchFn globals "resi" (patchResiBody · offset)

/-- The loop over the map, in the order in which it happens to be iterated. -/
def patchSeri (ndebug : Bool) (types : Types) (coros : Coros) (globals : List Function) :
    Option (List Function) :=
  coros.foldlM (fun globals c => patchOne ndebug types globals c.2) globals

/-! The accessors of `toy.cc`, with any constant in place of the 3. -/

def seriHandle : Decl := ⟨.parmDecl, some "h", 0, 64, 0, 0⟩
def seriResult : Decl := ⟨.resultDecl, none, 0, 16, 0, 0⟩
def resiObject : Decl := ⟨.parmDecl, some "r", 0, 64, 0, 0⟩
def resiIndex : Decl := ⟨.parmDecl, some "i", 0, 16, 0, 0⟩
def handleField : Decl := ⟨.fieldDecl, some "h", 0, 64, 0, 0⟩

/-- `*(uint16_t*)(*(char**)&e + offset)`. -/
def indexAt (e : Expr) (offset : Nat) : Expr :=
  .unary .indirectRef 2 (.unary .nopExpr 8 (.binary .pointerPlusExpr 8
    (.unary .indirectRef 8 (.unary .nopExpr 8 (.unary .addrExpr 8 e))) (.cst offset)))

def seriBody (offset : Nat) : Expr :=
  .unary .returnExpr 0 (.binary .initExpr 2 (.decl seriResult) (indexAt (.decl seriHandle) offset))

def resiBody (offset : Nat) : Expr :=
  .unary .cleanupPointExpr 0 (.unary .exprStmt 0 (.unary .convertExpr 0 (.binary .modifyExpr 2
    (indexAt (.binary .componentRef 8 (.unary .indirectRef 8 (.decl resiObject))
      (.decl handleField)) offset) (.decl resiIndex))))

/-- What the name `n` denotes has this body. -/
def BodyOf (globals : List Function) (n : String) (body : Expr) : Prop :=
  ∃ i f, getGlobalFn globals n = some i ∧ globals[i]? = some f ∧ f.body = some body

def Accessors (globals : List Function) (offset offset' : Nat) : Prop :=
  BodyOf globals "seri" (seriBody offset) ∧ BodyOf globals "resi" (resiBody offset')

/-- The frame's record has one member `_Coro_resume_index`, and that is at `offset`. -/
structure ResumeIndexAt (types : Types) (frame : Decl) (offset : Nat) : Prop where
  record : (types (types frame.type).type).code = .recordType
  member : ∃ f ∈ (types (types frame.type).type).fields, f.code = .fieldDecl ∧
    f.nameStr = resumeIndex ∧ f.size = 16 ∧ f.fieldBitOffset % 8 = 0 ∧
    f.fieldOffset + f.fieldBitOffset / 8 = offset
  unique : ∀ f ∈ (types (types frame.type).type).fields,
    ∀ g ∈ (types (types frame.type).type).fields, f.code = .fieldDecl → g.code = .fieldDecl →
      f.nameStr = resumeIndex → g.nameStr = resumeIndex → f = g

/-- The accessors do to a frame whose resume index is at `offset` what they are there for.
The handle of the frame at `a` lies in the parameter `h` of `seri`, and in the object that
the parameter `r` of `resi` refers to. -/
structure Works (globals : List Function) (offset : Nat) : Prop where
  seri : ∃ body, BodyOf globals "seri" body ∧ ∀ (env : Decl → Nat) (m : Memory) (a : Nat),
    load m 8 (env seriHandle) = a → body.exec env m = some (m, some (load m 2 (a + offset)))
  resi : ∃ body, BodyOf globals "resi" body ∧ ∀ (env : Decl → Nat) (m : Memory) (a r : Nat)
    (i : UInt16), load m 8 (env resiObject) = r → load m 8 r = a →
      load m 2 (env resiIndex) = i.toNat →
      body.exec env m = some (store m 2 (a + offset) i.toNat, none)
  seri_resi : ∃ seri resi, BodyOf globals "seri" seri ∧ BodyOf globals "resi" resi ∧
    ∀ (env env' : Decl → Nat) (m : Memory) (a r : Nat) (i : UInt16),
      load m 8 (env resiObject) = r → load m 8 r = a → load m 2 (env resiIndex) = i.toNat →
      ∃ m', resi.exec env m = some (m', none) ∧ ∀ m'', load m'' 8 (env' seriHandle) = a →
        load m'' 2 (a + offset) = load m' 2 (a + offset) →
        seri.exec env' m'' = some (m'', some i.toNat)

variable {ndebug : Bool} {types : Types} {globals globals' : List Function}
  {frame : Decl} {offset offset' k k' : Nat}

theorem BodyOf.unique {n : String} {b b' : Expr} (h : BodyOf globals n b)
    (h' : BodyOf globals n b') : b = b' := by
  obtain ⟨i, f, hi, hf, hb⟩ := h
  obtain ⟨i', f', hi', hf', hb'⟩ := h'
  cases hi.symm.trans hi'
  cases hf.symm.trans hf'
  exact Option.some.inj (hb.symm.trans hb')

/-- The only member with its name is the one that is found, and its offset is narrowed. -/
theorem coroMemberOffset_member {n : String}
    (record : (types (types frame.type).type).code = .recordType)
    (member : ∃ f ∈ (types (types frame.type).type).fields, f.code = .fieldDecl ∧
      f.nameStr = n ∧ f.size = 16 ∧ f.fieldBitOffset % 8 = 0 ∧
      f.fieldOffset + f.fieldBitOffset / 8 = offset)
    (unique : ∀ f ∈ (types (types frame.type).type).fields,
      ∀ g ∈ (types (types frame.type).type).fields, f.code = .fieldDecl → g.code = .fieldDecl →
        f.nameStr = n → g.nameStr = n → f = g) :
    coroMemberOffset ndebug types frame n = some (offset % 2 ^ 16) := by
  obtain ⟨f, mem, isField, name, size, aligned, at_offset⟩ := member
  have found : ∃ g, (types (types frame.type).type).fields.find?
      (fun f => f.code = .fieldDecl ∧ f.nameStr = n) = some g := by
    apply Option.isSome_iff_exists.mp
    rw [List.find?_isSome]
    exact ⟨f, mem, by simp [isField, name]⟩
  obtain ⟨g, hg⟩ := found
  have accepted := List.find?_some hg
  simp only [decide_eq_true_eq] at accepted
  have same : g = f := unique g (List.mem_of_find?_eq_some hg) f mem accepted.1 isField accepted.2 name
  subst same
  unfold coroMemberOffset
  simp only [record, hg, size, aligned, at_offset, ne_eq, not_true_eq_false, if_false, and_self,
    or_true, if_true]

theorem ResumeIndexAt.offset_eq (h : ResumeIndexAt types frame offset) (small : offset < 2 ^ 16) :
    coroMemberOffset ndebug types frame resumeIndex = some offset := by
  have narrowed : coroMemberOffset ndebug types frame resumeIndex = some (offset % 2 ^ 16) :=
    coroMemberOffset_member h.record h.member h.unique
  rwa [Nat.mod_eq_of_lt small] at narrowed

theorem ResumeIndexAt.unique_offset (h : ResumeIndexAt types frame offset)
    (h' : ResumeIndexAt types frame offset') : offset = offset' := by
  obtain ⟨f, mem, isField, name, _, _, at_offset⟩ := h.member
  obtain ⟨f', mem', isField', name', _, _, at_offset'⟩ := h'.member
  cases h.unique f mem f' mem' isField isField' name name'
  exact at_offset.symm.trans at_offset'

/-! ### One iteration -/

theorem getGlobalFn_set {i : Nat} {f f' : Function} (at_i : globals[i]? = some f)
    (same : f'.decl = f.decl) (n : String) :
    getGlobalFn (globals.set i f') n = getGlobalFn globals n := by
  have decls : ∀ fs : List Function, getGlobalFn fs n =
      (fs.map Function.decl).findIdx? fun d => d.code = .functionDecl ∧ d.nameStr = n := by
    intro fs
    simp only [getGlobalFn, List.findIdx?_map]
    rfl
  have bound : i < globals.length := (List.getElem?_eq_some_iff.mp at_i).1
  have unchanged : (globals.set i f').map Function.decl = globals.map Function.decl := by
    apply List.ext_getElem?
    intro j
    by_cases hj : i = j
    · subst hj
      simp only [List.getElem?_map, List.getElem?_set_self bound, at_i, Option.map_some, same]
    · simp [List.getElem?_set_ne hj]
  rw [decls, decls, unchanged]

/-- A patched body is found under its own name, and every other name finds what it found. -/
theorem patchFn_spec {n : String} (patch : Expr → Option Expr) {body body' : Expr}
    (old : BodyOf globals n body) (patched : patch body = some body') :
    ∃ globals', patchFn globals n patch = some globals' ∧ BodyOf globals' n body' ∧
      ∀ n' b, getGlobalFn globals n' ≠ getGlobalFn globals n → BodyOf globals n' b →
        BodyOf globals' n' b := by
  obtain ⟨i, f, hi, hf, hb⟩ := old
  have bound : i < globals.length := (List.getElem?_eq_some_iff.mp hf).1
  have names : ∀ n', getGlobalFn (globals.set i { f with body := some body' }) n' =
      getGlobalFn globals n' := getGlobalFn_set hf rfl
  refine ⟨globals.set i { f with body := some body' }, ?_, ?_, ?_⟩
  · simp [patchFn, hi, hf, hb, patched]
  · exact ⟨i, _, (names n).trans hi, List.getElem?_set_self bound, rfl⟩
  · rintro n' b other ⟨j, g, hj, hg, hb'⟩
    have ne : i ≠ j := by
      rintro rfl
      exact other (hj.trans hi.symm)
    exact ⟨j, g, (names n').trans hj, by rw [List.getElem?_set_ne ne]; exact hg, hb'⟩

theorem getGlobalFn_name {n : String} {i : Nat} {f : Function}
    (hi : getGlobalFn globals n = some i) (hf : globals[i]? = some f) : f.decl.nameStr = n := by
  obtain ⟨bound, accepted, _⟩ := List.findIdx?_eq_some_iff_getElem.mp hi
  have at_i : globals[i] = f := Option.some.inj ((List.getElem?_eq_getElem bound).symm.trans hf)
  rw [at_i] at accepted
  simp only [decide_eq_true_eq] at accepted
  exact accepted.2

theorem getGlobalFn_ne {n n' : String} {b : Expr} (ne : n' ≠ n) (h : BodyOf globals n' b) :
    getGlobalFn globals n' ≠ getGlobalFn globals n := by
  obtain ⟨i, f, hi, hf, _⟩ := h
  intro same
  exact ne ((getGlobalFn_name hi hf).symm.trans (getGlobalFn_name (same ▸ hi) hf))

theorem patchSeriBody_seriBody : patchSeriBody (seriBody k) offset = some (seriBody offset) := rfl

theorem patchResiBody_resiBody : patchResiBody (resiBody k) offset = some (resiBody offset) := rfl

/-- An iteration overwrites both constants, whatever they were. -/
theorem patchOne_spec (ndebug : Bool) (acc : Accessors globals k k')
    (at_offset : ResumeIndexAt types frame offset) (small : offset < 2 ^ 16) : ∃ globals',
      patchOne ndebug types globals frame = some globals' ∧ Accessors globals' offset offset := by
  obtain ⟨seri, resi⟩ := acc
  obtain ⟨g₁, h₁, seri₁, keep₁⟩ := patchFn_spec (patchSeriBody · offset) seri patchSeriBody_seriBody
  have resi₁ := keep₁ "resi" _ (getGlobalFn_ne (by decide) resi) resi
  obtain ⟨g₂, h₂, resi₂, keep₂⟩ := patchFn_spec (patchResiBody · offset) resi₁ patchResiBody_resiBody
  have seri₂ := keep₂ "seri" _ (getGlobalFn_ne (by decide) seri₁) seri₁
  refine ⟨g₂, ?_, seri₂, resi₂⟩
  simp only [patchOne, at_offset.offset_eq small, Option.bind_eq_bind, Option.bind_some, h₁, h₂]

/-! ### What patched accessors do -/

section accessors

variable {env : Decl → Nat} {m : Memory} {e : Expr} {p a r : Nat}

theorem indexAt_address (at_e : e.address env m = some p) (handle : load m 8 p = a) :
    (indexAt e k).address env m = some (a + k) := by
  simp [indexAt, Expr.address, Expr.value, at_e, handle]

theorem indexAt_value (at_e : e.address env m = some p) (handle : load m 8 p = a) :
    (indexAt e k).value env m = some (load m 2 (a + k)) := by
  simp [indexAt, Expr.value, at_e, handle]

theorem seriBody_exec (env : Decl → Nat) (handle : load m 8 (env seriHandle) = a) :
    (seriBody k).exec env m = some (m, some (load m 2 (a + k))) := by
  have value := indexAt_value (k := k) (e := .decl seriHandle) rfl handle
  simp [seriBody, Expr.exec, value]

theorem resiBody_exec (object : load m 8 (env resiObject) = r) (handle : load m 8 r = a)
    {i : UInt16} (index : load m 2 (env resiIndex) = i.toNat) :
    (resiBody k).exec env m = some (store m 2 (a + k) i.toNat, none) := by
  have field : (Expr.binary .componentRef 8 (.unary .indirectRef 8 (.decl resiObject))
      (.decl handleField)).address env m = some r := by
    simp [Expr.address, Expr.value, resiObject, handleField, ← object]
  have address := indexAt_address (k := k) field handle
  have number : (Expr.decl resiIndex).value env m = some i.toNat := by
    simp [Expr.value, ← index, resiIndex]
  simp [resiBody, Expr.exec, address, number]

theorem works_of_accessors (acc : Accessors globals k k) : Works globals k := by
  obtain ⟨seri, resi⟩ := acc
  refine ⟨⟨_, seri, fun env _ _ handle => seriBody_exec env handle⟩,
    ⟨_, resi, fun _ _ _ _ _ object handle index => resiBody_exec object handle index⟩,
    ⟨_, _, seri, resi, fun env env' m a r i object handle index => ?_⟩⟩
  refine ⟨_, resiBody_exec object handle index, fun m'' handle' same => ?_⟩
  have small : i.toNat < 256 ^ 2 := i.toNat_lt
  rw [seriBody_exec env' handle', same, load_store_of_lt small]

/-- A memory whose only set bit tells the two offsets apart. -/
theorem offset_of_works (acc : Accessors globals k k') (works : Works globals offset) :
    offset = k := by
  obtain ⟨body, hbody, seri⟩ := works.seri
  cases hbody.unique acc.1
  let bit : Memory := fun x => if x = 4096 + offset then 1 else 0
  let m : Memory := store bit 8 8 4096
  have handle : load m 8 8 = 4096 := load_store_of_lt (by decide)
  have frame : ∀ q, 4096 ≤ q → load m 2 q = load bit 2 q :=
    fun q hq => load_store_disjoint (by omega)
  have wanted := seri (fun _ => 8) m 4096 handle
  rw [seriBody_exec (fun _ => 8) handle, frame _ (by omega), frame _ (by omega)] at wanted
  simp only [Option.some.injEq, Prod.mk.injEq, true_and, load, bit] at wanted
  by_contra differ
  have other : ¬ 4096 + k = 4096 + offset := by omega
  -- the low bytes of the two values
  have zero : (0 : UInt8).toNat = 0 := rfl
  have one : (1 : UInt8).toNat = 1 := rfl
  rw [if_neg other, if_pos trivial] at wanted
  omega

end accessors

/-! ### The loop -/

/-- After the loop both constants are the offset in the last frame of the order. -/
theorem patchSeri_spec (ndebug : Bool) (last : Nat × Decl) (coros : Coros) (acc : Accessors globals k k')
    (at_offset : ∀ c ∈ coros ++ [last], ∃ o, ResumeIndexAt types c.2 o ∧ o < 2 ^ 16 - 1) :
    ∃ globals' o, patchSeri ndebug types (coros ++ [last]) globals = some globals' ∧
      ResumeIndexAt types last.2 o ∧ Accessors globals' o o := by
  induction coros generalizing globals k k' with
  | nil =>
    obtain ⟨o, ho, small⟩ := at_offset last (by simp)
    obtain ⟨globals', h, acc'⟩ := patchOne_spec ndebug acc ho (by omega)
    exact ⟨globals', o, by simp [patchSeri, h], ho, acc'⟩
  | cons c coros ih =>
    obtain ⟨o, ho, small⟩ := at_offset c (by simp)
    obtain ⟨globals₁, h, acc₁⟩ := patchOne_spec ndebug acc ho (by omega)
    obtain ⟨globals', o', h', ho', acc'⟩ := ih acc₁ fun d hd => at_offset d (by simp_all)
    refine ⟨globals', o', ?_, ho', acc'⟩
    simp only [patchSeri, List.cons_append, List.foldlM_cons, h, Option.bind_eq_bind, Option.bind_some]
    exact h'

/-- For any order of the map: the accessors work for every coroutine exactly when all
frames have the resume index at one offset. -/
theorem accessors_work_iff {u : Unit} (acc : Accessors u.globals k k')
    (layouts : ∀ c ∈ u.coros, ∃ o, ResumeIndexAt u.types c.2 o ∧ o < 2 ^ 16 - 1)
    {order : Coros} (any : order.Perm u.coros) :
    (∃ globals', patchSeri ndebug u.types order u.globals = some globals' ∧
      ∀ c ∈ u.coros, ∀ o, ResumeIndexAt u.types c.2 o → Works globals' o) ↔
    ∀ c ∈ u.coros, ∀ d ∈ u.coros, ∀ o o', ResumeIndexAt u.types c.2 o →
      ResumeIndexAt u.types d.2 o' → o = o' := by
  rcases List.eq_nil_or_concat order with rfl | ⟨coros, last, rfl⟩
  · have none : ∀ c, c ∉ u.coros := fun c hc => by simpa using any.symm.subset hc
    constructor
    · intro _ c hc
      exact absurd hc (none c)
    · intro _
      exact ⟨u.globals, rfl, fun c hc => absurd hc (none c)⟩
  · rw [List.concat_eq_append] at any ⊢
    obtain ⟨globals', o₀, h, ho₀, acc'⟩ := patchSeri_spec ndebug last coros acc
      fun c hc => layouts c (any.subset hc)
    have last_mem : last ∈ u.coros := any.subset (by simp)
    constructor
    · rintro ⟨globals'', h', works⟩ c hc d hd o o' ho ho'
      cases h.symm.trans h'
      rw [offset_of_works acc' (works c hc o ho), offset_of_works acc' (works d hd o' ho')]
    · intro same
      refine ⟨globals', h, fun c hc o ho => ?_⟩
      rw [same c hc last last_mem o o₀ ho ho₀]
      exact works_of_accessors acc'

/-! A unit with two coroutines, whose frames have the resume index at `o` and at `o'`. -/

def frameRecord (o : Nat) : List Decl :=
  [⟨.fieldDecl, some "_Coro_resume_fn", 4, 64, 0, 0⟩,
    ⟨.fieldDecl, some "_Coro_destroy_fn", 4, 64, 0, 64⟩,
    ⟨.fieldDecl, some resumeIndex, 5, 16, o / 16 * 16, o % 16 * 8⟩]

def framePtr (type : Nat) : Decl := ⟨.varDecl, some "_Coro_frameptr", type, 64, 0, 0⟩

def function (name : String) (coroutine : Bool) (body : Expr) : Function :=
  ⟨⟨.functionDecl, some name, 5, 0, 0, 0⟩, coroutine, some body⟩

def twoCoroutines (o o' : Nat) : Unit where
  types
    | 0 => ⟨.pointerType, 1, []⟩
    | 1 => ⟨.recordType, 0, frameRecord o⟩
    | 2 => ⟨.pointerType, 3, []⟩
    | 3 => ⟨.recordType, 0, frameRecord o'⟩
    | 4 => ⟨.pointerType, 6, []⟩
    | 6 => ⟨.functionType, 0, []⟩
    | _ => ⟨.integerType, 0, []⟩
  globals := [function "seri" false (seriBody 3), function "resi" false (resiBody 3)]
  functions := [(0, function "seri" false (seriBody 3)), (1, function "resi" false (resiBody 3)),
    (2, function "g" true (.decl (framePtr 0))), (3, function "f" true (.decl (framePtr 2)))]

theorem mem_twoCoroutines {o o' : Nat} {c : Nat × Decl} :
    c ∈ (twoCoroutines o o').coros ↔ c = (3, framePtr 2) ∨ c = (2, framePtr 0) := by
  have coros : (twoCoroutines o o').coros = [(3, framePtr 2), (2, framePtr 0)] := rfl
  simp [coros]

theorem twoCoroutines_accessors (o o' : Nat) : Accessors (twoCoroutines o o').globals 3 3 :=
  ⟨⟨0, _, rfl, rfl, rfl⟩, ⟨1, _, rfl, rfl, rfl⟩⟩

theorem frameRecord_index {types : Types} {frame : Decl} (o : Nat)
    (record : types (types frame.type).type = ⟨.recordType, 0, frameRecord o⟩) :
    ResumeIndexAt types frame o := by
  constructor
  · rw [record]
  · rw [record]
    refine ⟨_, List.mem_of_getElem? (i := 2) rfl, rfl, rfl, rfl, ?_, ?_⟩
    · exact Nat.mul_mod_left _ _
    · simp only
      omega
  · rw [record]
    simp [frameRecord, Decl.nameStr, resumeIndex]

/-- `toy.cc` with a second coroutine whose frame is laid out like that of `g`. -/
theorem accessors_work_same_layout : ∃ globals',
    patchSeri true (twoCoroutines 34 34).types [(2, framePtr 0), (3, framePtr 2)]
      (twoCoroutines 34 34).globals = some globals' ∧
    ∀ c ∈ (twoCoroutines 34 34).coros, ∀ o, ResumeIndexAt (twoCoroutines 34 34).types c.2 o →
      Works globals' o := by
  have at_34 : ∀ c ∈ (twoCoroutines 34 34).coros,
      ResumeIndexAt (twoCoroutines 34 34).types c.2 34 := by
    intro c hc
    rcases mem_twoCoroutines.mp hc with rfl | rfl <;> exact frameRecord_index 34 rfl
  refine (accessors_work_iff (twoCoroutines_accessors 34 34)
    (fun c hc => ⟨34, at_34 c hc, by decide⟩) (.swap _ _ _)).mpr ?_
  intro c hc d hd o o' ho ho'
  rw [ho.unique_offset (at_34 c hc), ho'.unique_offset (at_34 d hd)]

/-- Behind another layout one of the two coroutines is left with accessors that miss. -/
theorem accessors_miss : ¬ ∃ order : Coros, order.Perm (twoCoroutines 34 66).coros ∧
    ∃ globals', patchSeri true (twoCoroutines 34 66).types order
        (twoCoroutines 34 66).globals = some globals' ∧
      ∀ c ∈ (twoCoroutines 34 66).coros, ∀ o, ResumeIndexAt (twoCoroutines 34 66).types c.2 o →
        Works globals' o := by
  rintro ⟨order, any, globals', h, works⟩
  have first : ResumeIndexAt (twoCoroutines 34 66).types (framePtr 0) 34 := frameRecord_index 34 rfl
  have second : ResumeIndexAt (twoCoroutines 34 66).types (framePtr 2) 66 := frameRecord_index 66 rfl
  rcases List.eq_nil_or_concat order with rfl | ⟨coros, last, rfl⟩
  · exact absurd any.length_eq (by decide)
  · rw [List.concat_eq_append] at any h
    obtain ⟨globals'', k, h', _, acc⟩ := patchSeri_spec true last coros
      (twoCoroutines_accessors 34 66) fun c hc => by
        rcases mem_twoCoroutines.mp (any.subset hc) with rfl | rfl
        · exact ⟨66, second, by decide⟩
        · exact ⟨34, first, by decide⟩
    cases h.symm.trans h'
    have at_first := offset_of_works acc (works _ (mem_twoCoroutines.mpr (.inr rfl)) _ first)
    have at_second := offset_of_works acc (works _ (mem_twoCoroutines.mpr (.inl rfl)) _ second)
    omega

end Valor.Vapor
