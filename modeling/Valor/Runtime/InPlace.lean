import Valor.Lib.Interference
import Valor.Runtime.Rollback

/-! `deserialize()` on a coroutine that is suspended and goes on in place. In the pattern of
`k` nothing reads the string before the next save; what Valet makes loads it behind the
await. -/
namespace Valor

open Reactive Flow

variable {Pc Var : Type} {Val : Var → Type} {View Ev X R V : Type} {L : Nat}

def State.deserialize (t : State Pc Val Ev X R V) (ser : List UInt8) : State Pc Val Ev X R V :=
  match t with
  | .created c => .created { c with promise := Valor.deserialize c.promise ser }
  | .suspended c a bind next =>
    .suspended { c with promise := Valor.deserialize c.promise ser } a bind next
  | .running _ | .finished _ _ | .faulted _ _ => t

namespace InPlace

variable {b : Body Pc Var L} {m : Meaning b.graph Val Ev X R V} {u : Ufser Val View}
  {ndebug : Bool}

/-! ## By hand -/

/-- The body against the program while it is resumed in place. The locals are the same, and
the string may be any. -/
inductive Match (b : Body Pc Var L) (m : Meaning b.graph Val Ev X R V) :
    Nat → Flow.State Pc (Fin L) Val Ev X V → State (KPoint Pc L) Val Ev X R V → Prop where
  | start {l q h} : q.state = [] →
      Match b m 4 (.running b.graph.entry l h) (.running ⟨.preamble, l, q, h⟩)
  | user {p l q h} : Match b m 3 (.running p l h) (.running ⟨.user p, l, q, h⟩)
  | resize {p s l q h} : b.graph.node p = .await s →
      Match b m 2 (.running p l h) (.running ⟨.resize s, l, q, h⟩)
  | label {p s l q h} : b.graph.node p = .await s → q.aw.elems = [] →
      Match b m 1 (.running p l h) (.running ⟨.label s, l, q, h⟩)
  | await {p s l q h} : b.graph.node p = .await s → q.aw.elems = [] →
      Match b m 0 (.running p l h) (.running ⟨.await s, l, q, h⟩)
  | suspended {s l q x a h} : a.awaitResume q.aw = .ok x →
      Match b m 0 (.waiting s l h)
        (.suspended ⟨.await s, l, q, h⟩ a (m.bind s) (.user (b.graph.after s)))
  | finished {v h} : Match b m 0 (.finished v h) (.finished v h)

variable [DecidableEq Var] [∀ x, Inhabited (Val x)]

def simulation (u : Ufser Val View) (ndebug : Bool) (m : Meaning b.graph Val Ev X R V) :
    Simulation (m.machine (F := Fault)) (machine u ndebug (kProgram b m))
      fun r mv => mv = .resume r where
  rel := Match b m
  same_out := by
    intro n s t hm
    cases hm <;> rfl
  progress := by
    intro n s t hm
    cases hm with
    | start fresh =>
      exact .inl ⟨3, _, by decide,
        congrArg Turn.step (Protocol.execute_preamble_fresh fresh), .user⟩
    | @user p l q h =>
      cases e : b.graph.node p with
      | code r w next others =>
        have turn := Protocol.execute_user_code u ndebug (m := m) e ⟨.user p, l, q, h⟩
        exact .inr (.inl ⟨3, _, _, congrArg Turn.step (Meaning.execute_code e),
          congrArg Turn.step turn, .user⟩)
      | await s =>
        refine .inl ⟨2, .running ⟨.resize s, l, q.save u (s + 1) (b.vars s) l, h⟩, by decide, ?_,
          .resize e⟩
        simp only [machine, kProgram, e, execute]
      | ret r =>
        refine .inr (.inl ⟨0, _, _, congrArg Turn.step (Meaning.execute_ret e), ?_, .finished⟩)
        simp only [machine, kProgram, e, execute]
    | resize e => exact .inl ⟨1, _, by decide, rfl, .label e rfl⟩
    | label e empty =>
      exact .inl ⟨0, _, by decide, congrArg Turn.step (Protocol.execute_label_empty u ndebug empty),
        .await e empty⟩
    | @await p s l q h e empty =>
      exact .inr (.inl ⟨0, _, _, congrArg Turn.step (Meaning.execute_await e),
        congrArg Turn.step (Protocol.execute_await_empty empty),
        .suspended (Promise.awaitTransform_resume q _)⟩)
    | @suspended s l q x a h ready =>
      refine .inr (.inr (.inl ⟨_, _, rfl, rfl, ?_⟩))
      rintro r _ rfl
      refine ⟨3, ?_⟩
      simp only [answer, resume, ready]
      exact .user
    | finished => exact .inr (.inr (.inr ⟨rfl, rfl⟩))

/-- The string is not part of what is compared. -/
def meddled (u : Ufser Val View) (ndebug : Bool) (m : Meaning b.graph Val Ev X R V) :
    Simulation (m.machine (F := Fault))
      ((machine u ndebug (kProgram b m)).poked State.deserialize)
      fun r x => x.2 = .resume r :=
  (simulation u ndebug m).poked State.deserialize fun ser hm waits => by
    cases hm with
    | suspended ready => exact ⟨.suspended ready, _, rfl⟩
    | _ => cases waits

end InPlace

open InPlace in
/-- Whatever strings are deserialized into a suspended coroutine in the pattern of `k`, and
however often: resumed in place it shows what it would have shown without. -/
theorem k_deserialize_unseen [DecidableEq Var] [∀ x, Inhabited (Val x)] (u : Ufser Val View)
    (ndebug : Bool) {b : Body Pc Var L} (m : Meaning b.graph Val Ev X R V) (args junk : Store Val)
    (xs : List (List (List UInt8) × R)) (o : History Ev X × Status V Fault) :
    ((machine u ndebug (kProgram b m)).poked State.deserialize).Observes
        (xs.map fun x => (x.1, .resume x.2)) (.running ((kProgram b m).create args junk [])) o ↔
      (kProgram b m).Observes u ndebug args junk (xs.map fun x => .resume x.2) o := by
  have start : Match b m 4 (.running b.graph.entry (overlay b.params args junk) [])
      (.running ((kProgram b m).create args junk [])) := .start rfl
  have meddling : List.Forall₂ (fun r (x : List (List UInt8) × Move Val R) => x.2 = .resume r)
      (xs.map Prod.snd) (xs.map fun x => (x.1, .resume x.2)) := by
    rw [List.forall₂_map_left_iff, List.forall₂_map_right_iff]
    exact List.forall₂_same.mpr fun _ _ => rfl
  have plain : List.Forall₂ (fun r (mv : Move Val R) => mv = .resume r)
      (xs.map Prod.snd) (xs.map fun x => .resume x.2) := by
    rw [List.forall₂_map_left_iff, List.forall₂_map_right_iff]
    exact List.forall₂_same.mpr fun _ _ => rfl
  exact ((meddled u ndebug m).observes_iff meddling start o).trans
    ((simulation u ndebug m).observes_iff plain start o).symm

/-! ## Rewritten -/

namespace InPlace

variable [DecidableEq Var] {b : Body Pc Var L} {m : Meaning b.graph Val Ev X R V}
  {u : Ufser Val View} {ndebug : Bool}

/-- A suspended coroutine has the awaiter that it waits for. -/
def Waits : State (VPoint Pc L) Val Ev X R V → Prop
  | .suspended c a _ _ => c.promise.aw.elems ≠ [] ∧ ∃ x, a.awaitResume c.promise.aw = .ok x
  | _ => True

theorem waits_step (c : Config (VPoint Pc L) Val Ev X R) :
    Waits (execute u ndebug c ((valetProgram b m).fetch c.pc)) := by
  obtain ⟨pc, l, q, h⟩ := c
  cases pc with
  | preamble =>
    simp only [valetProgram, execute]
    split
    · trivial
    · trivial
    · split
      · trivial
      · split <;> trivial
  | user p =>
    cases e : b.graph.node p <;> simp only [valetProgram, e, execute, Waits]
  | await s =>
    exact ⟨Promise.awaitTransform_occupied q _, _, Promise.awaitTransform_resume q _⟩
  | label s =>
    simp only [valetProgram, execute]
    split <;> trivial

variable [∀ x, Inhabited (Val x)]

theorem waits_leads {args junk : Store Val} {ms : List (Move Val R)}
    {t : State (VPoint Pc L) Val Ev X R V} (leads : (machine u ndebug (valetProgram b m)).Leads
      (.running ((valetProgram b m).create args junk [])) ms t) : Waits t := by
  apply leads.keeps Waits fun _ => True
  · intro t t' _ turn
    cases t with
    | running c =>
      cases turn
      exact waits_step c
    | _ => cases turn
  · intro t k _ waits mv _
    cases t with
    | created c =>
      cases waits
      cases mv <;> trivial
    | suspended c a bind next =>
      cases waits
      cases mv with
      | resume r =>
        simp only [answer, resume]
        split <;> trivial
      | migrate results junk => trivial
    | _ => cases waits
  · exact fun _ _ => trivial
  · trivial

end InPlace

open InPlace Rewritten in
/-- A string of any suspension where the same variables are listed, deserialized into a
suspended rewritten coroutine, gives it the locals of that suspension; it goes on behind its
own await. -/
theorem valet_deserialize_in_place [DecidableEq Var] [∀ x, Inhabited (Val x)] {u : Ufser Val View}
    {ndebug ndebug' : Bool} {b : Body Pc Var L} (m : Meaning b.graph Val Ev X R V)
    (rt : u.RoundTrips) (few : L < 2 ^ 16) (void : b.Void)
    (listed : ∀ s, b.graph.liveAfter s ⊆ {x | x ∈ b.vars s})
    {args junk args' junk' : Store Val} {ms ms' : List (Move Val R)}
    {c c' : Config (VPoint Pc L) Val Ev X R} {a a' : Stored X R}
    {bind bind' : R → Store Val → Store Val} {next next' : VPoint Pc L}
    (leads : (machine u ndebug (valetProgram b m)).Leads
      (.running ((valetProgram b m).create args junk [])) ms (.suspended c a bind next))
    (leads' : (machine u ndebug' (valetProgram b m)).Leads
      (.running ((valetProgram b m).create args' junk' [])) ms' (.suspended c' a' bind' next'))
    {s s' : Fin L} (here : c.pc = .await s) (there : c'.pc = .await s')
    (same : b.vars s = b.vars s') (r : R) {rs : List R} {later : List (Move Val R)}
    (schedule : List.Forall₂ Continues rs later)
    (o : History Ev X × Status V Fault) :
    (machine u ndebug (valetProgram b m)).Observes (.resume r :: later)
        ((State.suspended c a bind next).deserialize c'.promise.state) o ↔
      (c.hist, .suspended) = o ∨
        m.machine.Observes rs (.running (b.graph.after s) c'.locals c.hist) o := by
  obtain ⟨occupied, x, ready⟩ := waits_leads leads
  obtain ⟨s₀, pc, rfl, rfl, _⟩ := Rollback.faithful_leads leads
  cases here.symm.trans pc
  obtain ⟨s₁, pc', _, _, saved'⟩ := Rollback.faithful_leads leads'
  cases there.symm.trans pc'
  let q : Promise X R := deserialize c.promise c'.promise.state
  have loaded : q.load u (b.vars s) c.locals = .ok (overlay (b.vars s) c'.locals c.locals) := by
    rw [same]
    exact load_saved rt (p := q) saved' occupied c.locals
  have agree : Agree (b.graph.live (b.graph.after s)) c'.locals
      (overlay (b.vars s) c'.locals c.locals) := by
    apply overlay_agree
    intro y live
    exact listed s (.inr ⟨by simp [(void s).2], live⟩)
  have rest : Match u ndebug b m 2 (.running (b.graph.after s) c'.locals c.hist)
      (.running ⟨.label s, c.locals, q, c.hist⟩) := match_label loaded agree
  have resumed : (resume { c with promise := q } a (m.bind s) (.label s) r :
      State (VPoint Pc L) Val Ev X R V) = .running ⟨.label s, c.locals, q, c.hist⟩ := by
    have ready' : a.awaitResume q.aw = .ok x := ready
    simp only [resume, ready', bind_void void]
  have turn : (machine u ndebug (valetProgram b m)).turn
      ((State.suspended c a (m.bind s) (.label s)).deserialize c'.promise.state) =
      .wait (answer (valetProgram b m) { c with promise := q }
        (resume { c with promise := q } a (m.bind s) (.label s))) := rfl
  rw [Machine.observes_wait _ turn]
  simp only [answer, resumed]
  exact or_congr Iff.rfl ((migrating ndebug m rt few void listed).observes_iff schedule rest o)

/-- `f(v)` at its await. -/
def atLogAwait (v : UInt32) : Config (VPoint LogLine 1) (fun _ : Unit => UInt32) UInt32 Unit Unit :=
  ⟨.await ⟨0, Nat.one_pos⟩, fun _ => v,
    ⟨be32 1 ++ be32 v.toNat, ⟨[some (.awaiter ())], 1, 1⟩⟩, [.await ()]⟩

theorem atLogAwait_leads (v : UInt32) :
    (machine wordUfser true (valetProgram (logAfterAwait Set.univ) logIn)).Leads
      (.running ((valetProgram (logAfterAwait Set.univ) logIn).create (fun _ => v) (fun _ => 0) []))
      [] (.suspended (atLogAwait v) (.ref 1 0) (logIn.bind 0) (.label 0)) :=
  .step rfl (.step rfl (.step rfl (.here _)))

/-- The string of `f(31)` in `f(45)`. -/
theorem valet_deserialize_in_place_log :
    (machine wordUfser true (valetProgram (logAfterAwait Set.univ) logIn)).Observes [.resume ()]
      ((State.suspended (atLogAwait 45) (.ref 1 0) (logIn.bind 0) (.label 0)).deserialize
        (atLogAwait 31).promise.state) ([.await (), .effect 31], .finished ()) := by
  have listed : ∀ s, (logAfterAwait Set.univ).graph.liveAfter s ⊆
      {x | x ∈ (logAfterAwait Set.univ).vars s} := fun _ _ _ => List.mem_singleton_self _
  exact (valet_deserialize_in_place logIn wordUfser_roundTrips (by decide) (logAfterAwait_void _)
    listed (atLogAwait_leads 45) (atLogAwait_leads 31) rfl rfl rfl () .nil _).mpr
    (.inr ⟨9, rfl⟩)

end Valor
