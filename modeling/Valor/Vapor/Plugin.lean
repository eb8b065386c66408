import Mathlib.Data.List.TakeWhile
import Valor.Vapor.Walk

/-! The plugin in a compilation. GCC calls it for each function before it is lowered, and at
the gates of its passes. The first gate that finds no error patches the accessors, with what
has been collected by then; no later one does anything. -/
namespace Valor.Vapor

open DepthFirst Bytes

/-- The trees of the graph, as `coro_member_offset` reads them. -/
def TypeGraph.types (g : TypeGraph) : Types := fun t =>
  ⟨g.code t, g.type t, (g.members t).map Member.toDecl⟩

inductive Callback where
  | preGenericize (fun' : Nat) (f : Function)
  | overrideGate (errorcount sorrycount : Nat)

/-- What the plugin keeps from one call to the next, and the functions it patches. -/
structure Plugin where
  walked : Walked
  coros : Coros
  once : Bool
  globals : List Function

def pluginInit (globals : List Function) : Plugin := ⟨⟨[], []⟩, [], false, globals⟩

section callbacks

variable (ndebug : Bool) (g : TypeGraph) (order : Coros → Coros) (fuel : Nat)

/-- `order` is how the map is gone through. -/
def Plugin.callback (s : Plugin) : Callback → Except Stop Plugin
  | .preGenericize fun' f => do
    let walked ← s.walked.collectCoro ndebug g fuel f
    return { s with walked, coros := collectCoro s.coros fun' f }
  | .overrideGate errorcount sorrycount =>
    if s.once ∨ errorcount ≠ 0 ∨ sorrycount ≠ 0 then .ok s
    else
      match patchSeri ndebug g.types (order s.coros) s.globals with
      | some globals => .ok { s with once := true, globals }
      | none => .error .failed

def compile (globals : List Function) (callbacks : List Callback) : Except Stop Plugin :=
  callbacks.foldlM (Plugin.callback ndebug g order fuel) (pluginInit globals)

end callbacks

/-- The compilation goes through all calls, and ends with this. -/
def Compiles (ndebug : Bool) (g : TypeGraph) (order : Coros → Coros) (globals : List Function)
    (callbacks : List Callback) (s : Plugin) : Prop :=
  ∃ fuel, ∀ extra, compile ndebug g order (fuel + extra) globals callbacks = .ok s

def Callback.function : Callback → Option (Nat × Function)
  | .preGenericize fun' f => some (fun', f)
  | .overrideGate _ _ => none

/-- A gate that finds no error. -/
def Callback.clean : Callback → Bool
  | .preGenericize _ _ => false
  | .overrideGate errorcount sorrycount => errorcount = 0 ∧ sorrycount = 0

def handed (callbacks : List Callback) : List (Nat × Function) :=
  callbacks.filterMap Callback.function

def collected (callbacks : List Callback) : Coros :=
  (handed callbacks).foldl (fun coros f => collectCoro coros f.1 f.2) []

def beforeGate (callbacks : List Callback) : List Callback :=
  callbacks.takeWhile fun c => !c.clean

/-- There is a gate without errors, and a coroutine before the first. -/
def Served (callbacks : List Callback) : Prop :=
  callbacks.any Callback.clean = true ∧ collected (beforeGate callbacks) ≠ []

namespace Plugin

variable {ndebug : Bool} {g : TypeGraph} {order : Coros → Coros} {fuel : Nat}
  {globals globals' : List Function} {callbacks : List Callback} {s : Plugin}

/-- What has become of the functions. -/
def patched (ndebug : Bool) (g : TypeGraph) (order : Coros → Coros) (globals : List Function)
    (callbacks : List Callback) : Option (List Function) :=
  if callbacks.any Callback.clean then
    patchSeri ndebug g.types (order (collected (beforeGate callbacks))) globals
  else some globals

theorem handed_append (callbacks : List Callback) (c : Callback) :
    handed (callbacks ++ [c]) = handed callbacks ++ c.function.toList := by
  simp only [handed, List.filterMap_append]
  cases c <;> rfl

theorem collected_function (callbacks : List Callback) (fun' : Nat) (f : Function) :
    collected (callbacks ++ [.preGenericize fun' f]) =
      collectCoro (collected callbacks) fun' f := by
  rw [collected, handed_append]
  simp only [Callback.function, Option.toList_some, List.foldl_append, List.foldl_cons,
    List.foldl_nil, collected]

theorem collected_gate (callbacks : List Callback) (e w : Nat) :
    collected (callbacks ++ [.overrideGate e w]) = collected callbacks := by
  simp only [collected, handed_append, Callback.function, Option.toList_none, List.append_nil]

theorem beforeGate_of_any (any : callbacks.any Callback.clean = true) (c : Callback) :
    beforeGate (callbacks ++ [c]) = beforeGate callbacks := by
  obtain ⟨gate, mem, clean⟩ := List.any_eq_true.mp any
  rw [beforeGate, List.takeWhile_append, if_neg, beforeGate]
  intro all
  have whole : callbacks.takeWhile (fun c => !c.clean) = callbacks :=
    (List.takeWhile_prefix _).eq_of_length all
  rw [← whole] at mem
  have dirty := List.mem_takeWhile_imp mem
  rw [clean] at dirty
  cases dirty

theorem beforeGate_of_none (none : ¬ callbacks.any Callback.clean = true) :
    beforeGate callbacks = callbacks := by
  apply List.takeWhile_eq_self_iff.mpr
  intro c mem
  have dirty : ¬ c.clean = true := fun clean => none (List.any_eq_true.mpr ⟨c, mem, clean⟩)
  simp only [Bool.not_eq_true] at dirty
  rw [dirty, Bool.not_false]

theorem patched_append {c : Callback}
    (keeps : callbacks.any Callback.clean = true ∨ c.clean = false) :
    patched ndebug g order globals (callbacks ++ [c]) =
      patched ndebug g order globals callbacks := by
  unfold patched
  rw [List.any_append]
  by_cases any : callbacks.any Callback.clean = true
  · simp only [any, Bool.true_or, if_true, beforeGate_of_any any]
  · have dirty : c.clean = false := keeps.resolve_left any
    simp only [any, List.any_cons, dirty, List.any_nil, Bool.or_false, Bool.false_eq_true, if_false]

theorem patched_first {c : Callback} (none : ¬ callbacks.any Callback.clean = true)
    (clean : c.clean = true) : patched ndebug g order globals (callbacks ++ [c]) =
      patchSeri ndebug g.types (order (collected callbacks)) globals := by
  have before : beforeGate (callbacks ++ [c]) = callbacks := by
    have all : callbacks.takeWhile (fun c => !c.clean) = callbacks := beforeGate_of_none none
    rw [beforeGate, List.takeWhile_append, if_pos (congrArg List.length all),
      List.takeWhile_cons_of_neg (by simp [clean]), List.append_nil]
  unfold patched
  rw [List.any_append, before]
  simp only [List.any_cons, clean, Bool.true_or, Bool.or_true, if_true]

/-- The last call decides between what was there before it and its own. -/
theorem compile_append (c : Callback) : compile ndebug g order fuel globals (callbacks ++ [c]) =
    compile ndebug g order fuel globals callbacks >>= fun s =>
      s.callback ndebug g order fuel c := by
  simp only [compile, List.foldlM_append, List.foldlM_cons, List.foldlM_nil, bind_pure]

theorem collectAll_append (fs : List Function) (f : Function) :
    collectAll ndebug g fuel (fs ++ [f]) =
      collectAll ndebug g fuel fs >>= fun w => w.collectCoro ndebug g fuel f := by
  simp only [collectAll, List.foldlM_append, List.foldlM_cons, List.foldlM_nil, bind_pure]

theorem bind_ok {E A B : Type} {x : Except E A} {f : A → Except E B} {b : B} :
    x >>= f = .ok b ↔ ∃ a, x = .ok a ∧ f a = .ok b := by
  cases x with
  | error e =>
    constructor
    · intro h
      cases h
    · rintro ⟨a, h, _⟩
      cases h
  | ok a =>
    constructor
    · exact fun h => ⟨a, rfl, h⟩
    · rintro ⟨_, h, rest⟩
      cases h
      exact rest

theorem callback_function {fun' : Nat} {f : Function} {s' : Plugin} :
    s.callback ndebug g order fuel (.preGenericize fun' f) = .ok s' ↔
      s.walked.collectCoro ndebug g fuel f = .ok s'.walked ∧ s'.coros = collectCoro s.coros fun' f ∧
        s'.once = s.once ∧ s'.globals = s.globals := by
  unfold callback
  rw [bind_ok]
  constructor
  · rintro ⟨walked, run, same⟩
    cases same
    exact ⟨run, rfl, rfl, rfl⟩
  · rintro ⟨run, coros, once, globals⟩
    refine ⟨s'.walked, run, ?_⟩
    obtain ⟨walked', coros', once', globals'⟩ := s'
    cases coros
    cases once
    cases globals
    rfl

theorem gate_idle {e w : Nat} (idle : s.once = true ∨ (Callback.overrideGate e w).clean = false) :
    s.callback ndebug g order fuel (.overrideGate e w) = .ok s := by
  unfold callback
  apply if_pos
  rcases idle with once | dirty
  · exact .inl once
  · simp only [Callback.clean, decide_eq_false_iff_not] at dirty
    exact .inr (Decidable.not_and_iff_or_not.mp dirty)

theorem gate_patches {e w : Nat} {s' : Plugin} (fresh : s.once = false)
    (clean : (Callback.overrideGate e w).clean = true) :
    s.callback ndebug g order fuel (.overrideGate e w) = .ok s' ↔
      patchSeri ndebug g.types (order s.coros) s.globals = some s'.globals ∧
        s'.walked = s.walked ∧ s'.coros = s.coros ∧ s'.once = true := by
  obtain ⟨walked, coros, once, globals'⟩ := s'
  simp only [Callback.clean, decide_eq_true_eq] at clean
  simp only [callback, fresh, clean, Bool.false_eq_true, ne_eq, not_true_eq_false, or_self,
    if_false]
  cases patchSeri ndebug g.types (order s.coros) s.globals with
  | none => simp
  | some patched =>
    simp only [Except.ok.injEq, Plugin.mk.injEq, Option.some.injEq]
    grind

/-- The first clean gate patches, whatever was called before; nothing else does. -/
theorem compile_ok_iff : compile ndebug g order fuel globals callbacks = .ok s ↔
    collectAll ndebug g fuel ((handed callbacks).map Prod.snd) = .ok s.walked ∧
      s.coros = collected callbacks ∧ s.once = callbacks.any Callback.clean ∧
      patched ndebug g order globals callbacks = some s.globals := by
  induction callbacks using List.reverseRecOn generalizing s with
  | nil =>
    obtain ⟨walked, coros, once, globals'⟩ := s
    simp [compile, pluginInit, handed, collected, collectAll, patched, pure, Except.pure]
  | append_singleton callbacks c ih =>
    rw [compile_append, bind_ok]
    simp only [ih]
    cases c with
    | preGenericize fun' f =>
      have walks : collectAll ndebug g fuel
          ((handed (callbacks ++ [.preGenericize fun' f])).map Prod.snd) =
          collectAll ndebug g fuel ((handed callbacks).map Prod.snd) >>= fun w =>
            w.collectCoro ndebug g fuel f := by
        rw [handed_append, List.map_append]
        exact collectAll_append _ f
      rw [walks, bind_ok, collected_function, patched_append (.inr rfl), List.any_append]
      simp only [callback_function, List.any_cons, Callback.clean, List.any_nil, Bool.or_false]
      constructor
      · rintro ⟨s', ⟨walk, coros, once, before⟩, here, coros', once', same⟩
        exact ⟨⟨_, walk, here⟩, coros' ▸ coros ▸ rfl, once'.trans once,
          before.trans (congrArg some same.symm)⟩
      · rintro ⟨⟨w, walk, here⟩, coros, once, before⟩
        exact ⟨⟨w, collected callbacks, s.once, s.globals⟩, ⟨walk, rfl, once, before⟩, here, coros,
          rfl, rfl⟩
    | overrideGate e w =>
      have walks : handed (callbacks ++ [.overrideGate e w]) = handed callbacks := by
        rw [handed_append]
        exact List.append_nil _
      rw [walks, collected_gate, List.any_append]
      simp only [List.any_cons, List.any_nil, Bool.or_false]
      by_cases acts : callbacks.any Callback.clean = false ∧
          (Callback.overrideGate e w).clean = true
      · obtain ⟨none, clean⟩ := acts
        have now : patched ndebug g order globals (callbacks ++ [.overrideGate e w]) =
            patchSeri ndebug g.types (order (collected callbacks)) globals :=
          patched_first (by rw [none]; decide) clean
        have before : patched ndebug g order globals callbacks = some globals := by
          simp only [patched, none, Bool.false_eq_true, if_false]
        rw [now, before, none, clean]
        constructor
        · rintro ⟨s', ⟨walk, coros, once, same⟩, here⟩
          obtain ⟨patch, walked', coros', once'⟩ := (gate_patches once clean).mp here
          cases same
          rw [coros] at patch coros'
          exact ⟨walked' ▸ walk, coros', once', patch⟩
        · rintro ⟨walk, coros, once, patch⟩
          exact ⟨⟨s.walked, collected callbacks, false, globals⟩, ⟨walk, rfl, rfl, rfl⟩,
            (gate_patches rfl clean).mpr ⟨patch, rfl, coros, once⟩⟩
      · have keeps : callbacks.any Callback.clean = true ∨
            (Callback.overrideGate e w).clean = false := by
          cases any : callbacks.any Callback.clean with
          | true => exact .inl rfl
          | false =>
            refine .inr ?_
            simpa [any] using acts
        have flag : (callbacks.any Callback.clean || (Callback.overrideGate e w).clean) =
            callbacks.any Callback.clean := by
          rcases keeps with any | dirty
          · rw [any, Bool.true_or]
          · rw [dirty, Bool.or_false]
        rw [patched_append keeps, flag]
        constructor
        · rintro ⟨s', ⟨walk, coros, once, same⟩, here⟩
          rw [gate_idle (once.symm ▸ keeps)] at here
          cases here
          exact ⟨walk, coros, once, same⟩
        · rintro ⟨walk, coros, once, same⟩
          exact ⟨s, ⟨walk, coros, once, same⟩, gate_idle (once.symm ▸ keeps)⟩

/-! ### What is collected -/

theorem collected_keys {entry : Nat × Decl} (mem : entry ∈ collected callbacks) :
    entry.1 ∈ (handed callbacks).map Prod.fst := by
  induction callbacks using List.reverseRecOn with
  | nil => cases mem
  | append_singleton callbacks c ih =>
    rw [handed_append, List.map_append, List.mem_append]
    cases c with
    | overrideGate e w =>
      rw [collected_gate] at mem
      exact .inl (ih mem)
    | preGenericize fun' f =>
      rw [collected_function, collectCoro] at mem
      split at mem
      · split at mem
        · rcases List.mem_cons.mp mem with rfl | old
          · exact .inr (List.mem_singleton_self _)
          · exact .inl (ih (List.mem_of_mem_filter old))
        · exact .inl (ih mem)
      · exact .inl (ih mem)

theorem mem_collectCoro {coros : Coros} {entry : Nat × Decl} {fun' : Nat} (f : Function)
    (mem : entry ∈ coros) (other : entry.1 ≠ fun') : entry ∈ collectCoro coros fun' f := by
  unfold collectCoro
  split
  · split
    · exact List.mem_cons_of_mem _ (List.mem_filter.mpr ⟨mem, by simpa using other⟩)
    · exact mem
  · exact mem

/-- If no function is handed over twice, a coroutine that is collected stays. -/
theorem collected_stays (later : List Callback)
    (each : ((handed (callbacks ++ later)).map Prod.fst).Nodup) :
    ∀ entry ∈ collected callbacks, entry ∈ collected (callbacks ++ later) := by
  intro entry mem
  induction later using List.reverseRecOn with
  | nil => rwa [List.append_nil]
  | append_singleton later c ih =>
    rw [← List.append_assoc, handed_append, List.map_append] at each
    rw [← List.append_assoc]
    have here := ih (List.nodup_append.mp each).1
    cases c with
    | overrideGate e w => rwa [collected_gate]
    | preGenericize fun' f =>
      rw [collected_function]
      apply mem_collectCoro f here
      intro same
      exact (List.nodup_append.mp each).2.2 _ (collected_keys here) _ (List.mem_singleton_self _)
        same

theorem beforeGate_stays (each : ((handed callbacks).map Prod.fst).Nodup) :
    ∀ entry ∈ collected (beforeGate callbacks), entry ∈ collected callbacks := by
  obtain ⟨later, whole⟩ := List.takeWhile_prefix (l := callbacks) fun c => !c.clean
  have split : beforeGate callbacks ++ later = callbacks := whole
  intro entry mem
  rw [← split] at each ⊢
  exact collected_stays later each entry mem

/-! ### What becomes of the accessors -/

/-- The store of `resi` tells its constant. -/
theorem resi_offset_of_works {k k' offset : Nat} (acc : Accessors globals k k')
    (works : Works globals offset) : offset = k' := by
  obtain ⟨body, hbody, resi⟩ := works.resi
  cases hbody.unique acc.2
  let m : Memory := store (store (store (fun _ => 0) 8 8 24) 8 24 4096) 2 40 1
  let env : Decl → Nat := fun d => if d = resiObject then 8 else 40
  have object : load m 8 (env resiObject) = 24 := by decide
  have handle : load m 8 24 = 4096 := by decide
  have index : load m 2 (env resiIndex) = (1 : UInt16).toNat := by decide
  have zero : ∀ x, 4096 ≤ x → m x = 0 := fun x le => by
    simp only [m]
    rw [store_outside (by omega), store_outside (by omega), store_outside (by omega)]
  have wanted := resi env m 4096 24 1 object handle index
  rw [resiBody_exec object handle index] at wanted
  have same : store m 2 (4096 + k') 1 = store m 2 (4096 + offset) 1 :=
    congrArg Prod.fst (Option.some.inj wanted)
  have here : store m 2 (4096 + offset) 1 (4096 + offset) = 1 := Function.update_self _ _ _
  rw [← same] at here
  by_contra differ
  have ne : 4096 + offset ≠ 4096 + k' := by omega
  have behind : store m 2 (4096 + k') 1 (4096 + offset) =
      store m 1 (4096 + k' + 1) 0 (4096 + offset) := Function.update_of_ne ne _ _
  rw [behind] at here
  by_cases next : 4096 + offset = 4096 + k' + 1
  · rw [next, store, Function.update_self] at here
    exact absurd here (by decide)
  · rw [store, Function.update_of_ne next, store, zero _ (by omega)] at here
    exact absurd here (by decide)

theorem patched_unserved (ndebug : Bool) (g : TypeGraph) (globals : List Function)
    (any : ∀ coros, (order coros).Perm coros) (idle : ¬ Served callbacks) :
    patched ndebug g order globals callbacks = some globals := by
  unfold patched
  split
  · rename_i clean
    have none : collected (beforeGate callbacks) = [] := by
      by_contra some'
      exact idle ⟨clean, some'⟩
    have empty : order [] = [] := (any []).eq_nil
    rw [none, empty]
    rfl
  · rfl

theorem patched_served (ndebug : Bool) (any : ∀ coros, (order coros).Perm coros) {k k' : Nat}
    (acc : Accessors globals k k') (served : Served callbacks)
    (layouts : ∀ c ∈ collected (beforeGate callbacks), ∃ o, ResumeIndexAt g.types c.2 o ∧
      o < 2 ^ 16 - 1) : ∃ globals' last o,
        patched ndebug g order globals callbacks = some globals' ∧
        last ∈ collected (beforeGate callbacks) ∧ ResumeIndexAt g.types last.2 o ∧
        Accessors globals' o o := by
  obtain ⟨clean, some'⟩ := served
  have perm := any (collected (beforeGate callbacks))
  rcases List.eq_nil_or_concat (order (collected (beforeGate callbacks))) with
    none | ⟨cs, last, whole⟩
  · rw [none] at perm
    exact absurd perm.nil_eq.symm some'
  · rw [List.concat_eq_append] at whole
    rw [whole] at perm
    obtain ⟨globals', o, run, index, acc'⟩ := patchSeri_spec ndebug last cs acc
      fun c mem => layouts c (perm.subset mem)
    refine ⟨globals', last, o, ?_, perm.subset (List.mem_append_right _ List.mem_cons_self), index,
      acc'⟩
    rw [patched, if_pos clean, whole]
    exact run

theorem compiles_iff : Compiles ndebug g order globals callbacks s ↔
    collectAll ndebug g (enough g) ((handed callbacks).map Prod.snd) = .ok s.walked ∧
      s.coros = collected callbacks ∧ s.once = callbacks.any Callback.clean ∧
      patched ndebug g order globals callbacks = some s.globals := by
  constructor
  · rintro ⟨fuel, run⟩
    have rest := compile_ok_iff.mp (run (enough g))
    rw [Nat.add_comm, collectAll_ends] at rest
    exact rest
  · rintro ⟨walk, rest⟩
    refine ⟨enough g, fun extra => compile_ok_iff.mpr ⟨?_, rest⟩⟩
    rw [collectAll_ends]
    exact walk

end Plugin

open Plugin in
/-- Whatever GCC calls in whatever order: the compilation ends with accessors that work for
all its coroutines just when no walk fails, all frames have the resume index at one
offset, and a coroutine came before the first clean gate unless the accessors have that
offset anyway. -/
theorem compilation_served_iff (ndebug : Bool) (g : TypeGraph) {order : Coros → Coros}
    (any : ∀ coros, (order coros).Perm coros) {globals : List Function} {k k' : Nat}
    (acc : Accessors globals k k') {callbacks : List Callback}
    (each : ((handed callbacks).map Prod.fst).Nodup)
    (layouts : ∀ c ∈ collected callbacks, ∃ o, ResumeIndexAt g.types c.2 o ∧ o < 2 ^ 16 - 1) :
    (∃ s, Compiles ndebug g order globals callbacks s ∧
      ∀ c ∈ collected callbacks, ∀ o, ResumeIndexAt g.types c.2 o → Works s.globals o) ↔
    (∀ frame ∈ ((handed callbacks).map Prod.snd).filterMap (Function.frame g), ∀ r,
        Reached g frame r → Walkable ndebug g r) ∧
      (∀ c ∈ collected callbacks, ∀ d ∈ collected callbacks, ∀ o o', ResumeIndexAt g.types c.2 o →
        ResumeIndexAt g.types d.2 o' → o = o') ∧
      (Served callbacks ∨
        ∀ c ∈ collected callbacks, ∀ o, ResumeIndexAt g.types c.2 o → k = o ∧ k' = o) := by
  have before := beforeGate_stays each
  simp only [compiles_iff, ← collectAll_ok_iff]
  by_cases served : Served callbacks
  · obtain ⟨globals', last, o, run, here, index, acc'⟩ :=
      patched_served ndebug any acc served fun c mem => layouts c (before c mem)
    constructor
    · rintro ⟨s, ⟨walk, _, _, patch⟩, works⟩
      cases run.symm.trans patch
      refine ⟨⟨_, walk⟩, fun c hc d hd o o' ho ho' => ?_, .inl served⟩
      rw [offset_of_works acc' (works c hc o ho), offset_of_works acc' (works d hd o' ho')]
    · rintro ⟨⟨walked, walk⟩, same, _⟩
      refine ⟨⟨walked, _, _, globals'⟩, ⟨walk, rfl, rfl, run⟩, fun c hc o' ho => ?_⟩
      rw [same c hc last (before last here) o' o ho index]
      exact works_of_accessors acc'
  · have run := patched_unserved ndebug g globals any served
    constructor
    · rintro ⟨s, ⟨walk, _, _, patch⟩, works⟩
      cases run.symm.trans patch
      refine ⟨⟨_, walk⟩, fun c hc d hd o o' ho ho' => ?_, .inr fun c hc o ho => ?_⟩
      · rw [offset_of_works acc (works c hc o ho), offset_of_works acc (works d hd o' ho')]
      · have works' := works c hc o ho
        exact ⟨(offset_of_works acc works').symm, (resi_offset_of_works acc works').symm⟩
    · rintro ⟨⟨walked, walk⟩, _, anyway⟩
      refine ⟨⟨walked, _, _, globals⟩, ⟨walk, rfl, rfl, run⟩, fun c hc o ho => ?_⟩
      obtain ⟨rfl, rfl⟩ := anyway.resolve_left served c hc o ho
      exact works_of_accessors acc

/-- The frame of `g` in `toy.cc`, with the resume index at 34. -/
def toyFrame : TypeGraph where
  code
    | 0 | 4 => .pointerType
    | 1 => .recordType
    | 6 => .functionType
    | _ => .integerType
  name
    | 1 => some (some "g.Frame")
    | _ => none
  type
    | 0 => 1
    | 4 => 6
    | _ => 0
  members
    | 1 => (frameRecord 34).map fun f => ⟨f, true, 128, false⟩
    | _ => []
  mainVariant := id
  sameType r i := decide (r = i)
  count := 2
  finite r := by
    intro le
    match r with
    | 0 | 1 => omega
    | r + 2 => rfl
  refl := by simp
  symm := by simp
  trans := by simp
  sameMain := by simp
  sameMembers := by simp

/-- A gate with an error, `g`, two gates without, and a coroutine behind the first of these
with a frame of the same type. -/
def toyCalls : List Callback :=
  [.overrideGate 1 0, .preGenericize 2 (function "g" true (.decl (framePtr 0))), .overrideGate 0 0,
    .preGenericize 3 (function "f" true (.decl (framePtr 0))), .overrideGate 0 0]

theorem compilation_served_toy : ∃ s,
    Compiles false toyFrame List.reverse (twoCoroutines 34 34).globals toyCalls s ∧
      ∀ c ∈ collected toyCalls, ∀ o, ResumeIndexAt toyFrame.types c.2 o → Works s.globals o := by
  have index : ResumeIndexAt toyFrame.types (framePtr 0) 34 := frameRecord_index 34 rfl
  have frames : ∀ c ∈ collected toyCalls, c.2 = framePtr 0 := by decide
  have at_34 : ∀ c ∈ collected toyCalls, ResumeIndexAt toyFrame.types c.2 34 := fun c hc =>
    (frames c hc).symm ▸ index
  have fields : ∀ f ∈ toyFrame.members 1, f.code = .fieldDecl ∧
      toyFrame.code f.type ≠ .recordType ∧ f.fits false = true := by decide
  have reached : ∀ r, Reached toyFrame 1 r → r = 1 := by
    intro r reach
    induction reach with
    | frame => rfl
    | member _ mem _ record ih => exact absurd record (fields _ (ih ▸ mem)).2.1
    | inner _ mem code _ ih =>
      have field := (fields _ (ih ▸ mem)).1
      rw [code] at field
      cases field
  apply (compilation_served_iff false toyFrame List.reverse_perm (twoCoroutines_accessors 34 34)
    (by decide) fun c hc => ⟨34, at_34 c hc, by decide⟩).mpr
  refine ⟨?_, ?_, .inl ⟨by decide, by decide⟩⟩
  · intro frame mem r reach
    have only : ∀ frame ∈ ((handed toyCalls).map Prod.snd).filterMap (Function.frame toyFrame),
        frame = 1 := by decide
    cases only frame mem
    cases reached r reach
    exact ⟨rfl, rfl, fun f mem _ => (fields f mem).2.2⟩
  · intro c hc d hd o o' ho ho'
    rw [ho.unique_offset (at_34 c hc), ho'.unique_offset (at_34 d hd)]

end Valor.Vapor
