import Valor.Runtime.Protocol
import Valor.Runtime.Workflow

/-! `set_aw_ret` on a coroutine in the pattern of `k`. It appends to `aw`, where a restored
coroutine looks for the result of its next await and a live one keeps its awaiter. -/
namespace Valor

open Reactive Flow

variable {Pc Var : Type} {Val : Var → Type} {View Ev X R V : Type} {L : Nat} [DecidableEq Var]

def State.setAwRet : State Pc Val Ev X R V → R → State Pc Val Ev X R V
  | .created c, r => .created { c with promise := Valor.setAwRet c.promise r }
  | .suspended c a bind next, r =>
    .suspended { c with promise := Valor.setAwRet c.promise r } a bind next
  | s, _ => s

section
variable [∀ x, Inhabited (Val x)]

/-- With `operator()`, the `co_await` at `pc` evaluates to `v` and the run goes on from the
last state. A live coroutine's awaiter answers `r`. -/
inductive Yields (u : Ufser Val View) (ndebug : Bool) (prog : Program Pc Val Ev X R V) (pc : Pc)
    (r : R) : State Pc Val Ev X R V → R → State Pc Val Ev X R V → Prop where
  | live {c a bind next x} : c.pc = pc → a.awaitResume c.promise.aw = .ok x →
      Yields u ndebug prog pc r (.suspended c a bind next) r
        (.running { c with pc := next, locals := bind r c.locals })
  | supplied {c c' i x bind next v} : (machine u ndebug prog).Leads (.created c) [.resume r] (.running c') →
      c'.pc = pc → prog.fetch pc = .guarded i x bind next → c'.promise.aw.has i →
      c'.promise.aw.getAs i = .ok v → Yields u ndebug prog pc r (.created c) v
        (.running { c' with pc := next, locals := bind v c'.locals })

/-- What an await finds in `aw` is `good`. An awaiter that is put there is alone. -/
def Finds (good : List (Option (Held X R)) → Prop) : State (KPoint Pc L) Val Ev X R V → Prop
  | .running ⟨.preamble, _, p, _⟩ | .running ⟨.label _, _, p, _⟩ | .running ⟨.await _, _, p, _⟩ =>
    good p.aw.elems
  | .suspended c a _ next =>
    (∃ x, c.promise.aw.elems = [some (.awaiter x)] ∧ a = .ref c.promise.aw.epoch 0) ∧
      ∃ p, next = .user p
  | .created _ => False
  | _ => True

/-- After `set_aw_ret(r)`, the `co_await` with number `s` evaluates to `r`, whose awaiter, if
there is one, answers `r'`; the later awaits see nothing of it. -/
def Supplies (u : Ufser Val View) (ndebug : Bool) (b : Body Pc Var L)
    (m : Meaning b.graph Val Ev X R V) (s : Fin L) (t : State (KPoint Pc L) Val Ev X R V)
    (r r' : R) : Prop :=
  ∃ t', Yields u ndebug (kProgram b m) (.await s) r' (t.setAwRet r) r t' ∧
    ∀ (rs : List R) t'', (machine u ndebug (kProgram b m)).Leads t' (rs.map .resume) t'' →
      Finds (· = []) t''

/-- The suspensions at await `s`: of a new coroutine that was given what `save` has written
there, and of a running one, whatever has happened to it. -/
inductive SuspendedAt (u : Ufser Val View) (ndebug : Bool) (b : Body Pc Var L)
    (m : Meaning b.graph Val Ev X R V) (s : Fin L) : State (KPoint Pc L) Val Ev X R V → Prop where
  | restored (l args junk : Store Val) (h : History Ev X) : s.val + 1 < 2 ^ 16 →
      SuspendedAt u ndebug b m s (.created ((kProgram b m).reload
        (u.serialize (s + 1) (Promise.values l (b.vars s))) args junk h))
  | live {args junk ms c a bind next} : (machine u ndebug (kProgram b m)).Leads
      (.running ((kProgram b m).create args junk [])) ms (.suspended c a bind next) →
      c.pc = .await s → SuspendedAt u ndebug b m s (.suspended c a bind next)

/-- There is no awaiter; or there is room behind it, and it answers the same. -/
def Suppliable : State Pc Val Ev X R V → R → R → Prop
  | .created _, _, _ => True
  | .suspended c _ _ _, r, r' => c.promise.aw.elems.length < c.promise.aw.capacity ∧ r' = r
  | _, _, _ => False

end

namespace Supply

open Protocol

variable [∀ x, Inhabited (Val x)] {b : Body Pc Var L} {m : Meaning b.graph Val Ev X R V}
  {u : Ufser Val View} {ndebug : Bool}

omit [∀ x, Inhabited (Val x)] in
theorem finds_step {good : List (Option (Held X R)) → Prop} (none : good [])
    (results : ∀ es, good es → es = [] ∨ ∃ r rest, es = some (.result r) :: rest)
    {c : Config (KPoint Pc L) Val Ev X R} (h : Finds (V := V) good (.running c)) :
    Finds good (execute u ndebug c ((kProgram b m).fetch c.pc)) := by
  obtain ⟨pc, l, q, hist⟩ := c
  cases pc with
  | preamble =>
    simp only [kProgram, execute, Option.any_none, Bool.and_false, Bool.false_eq_true, if_false]
    split
    · trivial
    · trivial
    · split
      · rename_i pc entry
        rcases List.mem_cons.mp (List.mem_of_getElem? entry) with rfl | label
        · trivial
        · obtain ⟨s, rfl⟩ := List.mem_ofFn.mp label
          exact h
      · trivial
  | user p =>
    cases e : b.graph.node p with
    | code =>
      rw [execute_user_code u ndebug e]
      trivial
    | await s =>
      simp only [kProgram, e, execute]
      trivial
    | ret r =>
      simp only [kProgram, e, execute]
      trivial
  | resize s => exact none
  | label s =>
    simp only [kProgram, execute]
    split
    · exact h
    · trivial
  | await s =>
    rcases results _ h with empty | ⟨r, rest, supplied⟩
    · have empty : q.aw.elems = [] := empty
      rw [execute_await_empty empty]
      refine ⟨⟨m.operand s hist l, ?_, ?_⟩, _, rfl⟩
      · simp [Promise.awaitTransform, empty]
      · simp [Promise.awaitTransform, empty]
    · have supplied : q.aw.elems = some (.result r) :: rest := supplied
      rw [execute_await_supplied supplied]
      trivial

/-- What is found in `aw` along a run: migrations bring results, and answers nothing. -/
theorem finds_leads {good : List (Option (Held X R)) → Prop} (none : good [])
    (results : ∀ es, good es → es = [] ∨ ∃ r rest, es = some (.result r) :: rest)
    {ms : List (Move Val R)} {t t' : State (KPoint Pc L) Val Ev X R V}
    (leads : (machine u ndebug (kProgram b m)).Leads t ms t')
    (brought : ∀ mv ∈ ms, ∀ rs junk, mv = .migrate rs junk →
      good (rs.map fun r => some (.result r)))
    (start : Finds good t) : Finds good t' := by
  refine leads.keeps (Finds good) (fun mv => ∀ rs junk, mv = .migrate rs junk →
    good (rs.map fun r => some (.result r))) ?_ ?_ brought start
  · intro s s' h turn
    cases s with
    | running c =>
      cases turn
      exact finds_step none results h
    | created | suspended | finished | faulted => cases turn
  · rintro s k h turn mv brings
    cases s with
    | suspended c a bind next =>
      obtain ⟨⟨x, alone, rfl⟩, p, rfl⟩ := h
      cases turn
      cases mv with
      | resume r =>
        simp only [answer, resume]
        split
        · trivial
        · trivial
      | migrate rs junk =>
        have elems := restored_elems (Promise.initial : Promise X R) c.promise.state rs
        exact (congrArg good elems).mpr (brings rs junk rfl)
    | created => exact h.elim
    | running | finished | faulted => cases turn

/-- In place, nothing is left of what an await has found. -/
theorem finds_nothing {t t' : State (KPoint Pc L) Val Ev X R V} {rs : List R}
    (leads : (machine u ndebug (kProgram b m)).Leads t (rs.map .resume) t')
    (start : Finds (· = []) t) : Finds (· = []) t' := by
  refine finds_leads ?_ ?_ leads ?_ start
  · rfl
  · exact fun es empty => .inl empty
  · rintro mv mem rs' junk rfl
    obtain ⟨r, _, other⟩ := List.mem_map.mp mem
    cases other

theorem yields_answer {prog : Program Pc Val Ev X R V} {pc : Pc} {r v : R}
    {c : Config Pc Val Ev X R} {a : Stored X R} {bind : R → Store Val → Store Val} {next : Pc}
    {t : State Pc Val Ev X R V} (h : Yields u ndebug prog pc r (.suspended c a bind next) v t) :
    v = r := by
  cases h with
  | live => rfl

/-- The results supplied through `continue_from`. -/
def Results (es : List (Option (Held X R))) : Prop :=
  ∃ rs : List R, es = rs.map fun r => some (.result r)

theorem finds_results {args junk : Store Val} {ms : List (Move Val R)}
    {t : State (KPoint Pc L) Val Ev X R V} (leads : (machine u ndebug (kProgram b m)).Leads
      (.running ((kProgram b m).create args junk [])) ms t) : Finds Results t := by
  refine finds_leads ⟨[], rfl⟩ ?_ leads (fun _ _ rs _ _ => ⟨rs, rfl⟩) ⟨[], rfl⟩
  rintro es ⟨rs, rfl⟩
  cases rs with
  | nil => exact .inl rfl
  | cons r rs => exact .inr ⟨r, _, rfl⟩

end Supply

open Supply in
/-- `set_aw_ret` supplies what the suspended `co_await` evaluates to where it has no awaiter, and
else only if the awaiter answers the same and stays where it is. -/
theorem set_aw_ret_iff [∀ x, Inhabited (Val x)] {u : Ufser Val View} (rt : u.RoundTrips)
    (ndebug : Bool) {b : Body Pc Var L} (m : Meaning b.graph Val Ev X R V) {s : Fin L}
    {t : State (KPoint Pc L) Val Ev X R V} (suspended : SuspendedAt u ndebug b m s t) (r r' : R) :
    Supplies u ndebug b m s t r r' ↔ Suppliable t r r' := by
  cases suspended with
  | restored l args junk h small =>
    refine ⟨fun _ => trivial, fun _ => ?_⟩
    let q := setAwRet
      (deserialize (Promise.initial : Promise X R) (u.serialize (s + 1) (Promise.values l (b.vars s)))) r
    have saved : Protocol.Saved u b s l q := rfl
    let c : Config (KPoint Pc L) Val Ev X R := ⟨.preamble, overlay b.params args junk, q, h⟩
    have jump : execute u ndebug c ((kProgram b m).fetch c.pc) = .running { c with pc := .label s } :=
      Protocol.execute_preamble rt small saved
    have loaded : execute u ndebug { c with pc := .label s } ((kProgram b m).fetch (.label s)) =
        .running { c with pc := .await s, locals := overlay (b.vars s) l c.locals } :=
      Protocol.execute_label_saved rt small saved (List.cons_ne_nil _ _)
    have reached : (machine u ndebug (kProgram b m)).Leads (.created c) [.resume r'] (.running
        { c with pc := .await s, locals := overlay (b.vars s) l c.locals }) :=
      .wait rfl (.step (congrArg Turn.step jump) (.step (congrArg Turn.step loaded) (.here _)))
    have here : q.aw.has 0 = true := rfl
    have given : q.aw.getAs 0 = .ok r := rfl
    refine ⟨_, .supplied reached rfl rfl here given, fun rs t'' leads => finds_nothing leads ?_⟩
    trivial
  | @live args junk ms c a bind next leads here =>
    obtain ⟨⟨x, alone, rfl⟩, p, rfl⟩ := finds_results leads
    constructor
    · rintro ⟨t', yields, _⟩
      cases yields with
      | live _ ready =>
        refine ⟨?_, rfl⟩
        by_contra full
        have moved : (setAwRet c.promise r).aw.epoch = c.promise.aw.epoch + 1 := by
          simp only [setAwRet, AnyVec.put, if_neg full]
        simp [Stored.awaitResume, Stored.get, moved] at ready
    · rintro ⟨room, rfl⟩
      have kept : (setAwRet c.promise r').aw.epoch = c.promise.aw.epoch := by
        simp only [setAwRet, AnyVec.put, if_pos room]
      have elems : (setAwRet c.promise r').aw.elems =
          [some (.awaiter x), some (.result r')] := by
        simp only [setAwRet, AnyVec.put_elems, alone, List.singleton_append]
      have ready : (Stored.ref c.promise.aw.epoch 0).awaitResume (setAwRet c.promise r').aw = .ok x := by
        simp [Stored.awaitResume, Stored.get, kept, elems]
      refine ⟨_, .live here ready, fun rs t'' leads => finds_nothing leads ?_⟩
      trivial

/-- A new `k`, given what another one has saved at its first await. -/
theorem set_aw_ret_restored : Supplies wordUfser true k (kMeaning (· + 1)) 0
    (.created ((kProgram k (kMeaning (· + 1))).reload
      (wordUfser.serialize 1 (Promise.values (fun _ => 46) [KVar.in'])) (fun _ => 0) (fun _ => 7) []))
    29 46 :=
  (set_aw_ret_iff wordUfser_roundTrips true _ (.restored (fun _ => 46) _ _ _ (by decide)) 29 46).mpr
    trivial

/-- `k(45)`, live at its first await: 29 is put behind the awaiter. -/
theorem set_aw_ret_live : ∃ t, SuspendedAt wordUfser true k (kMeaning (· + 1)) 0 t ∧
    ¬ Supplies wordUfser true k (kMeaning (· + 1)) 0 t 29 46 := by
  have leads : (machine wordUfser true (kProgram k (kMeaning (· + 1)))).Leads
      (.running ((kProgram k (kMeaning (· + 1))).create (fun _ => 45) (fun _ => 0) [])) []
      (.suspended _ _ _ _) :=
    .step rfl (.step rfl (.step rfl (.step rfl (.step rfl (.step rfl (.here _))))))
  refine ⟨_, .live leads rfl, ?_⟩
  rintro ⟨t', yields, _⟩
  exact absurd (Supply.yields_answer yields) (by decide)

end Valor
