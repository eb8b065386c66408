import Valor.Lib.Checkpoints
import Valor.Runtime.Workflow

/-! Coroutines whose strings are kept. At a suspension the string of `serialize()` can be
stored, and a coroutine that is suspended or has ended can be given up for a new process that
continues from any stored string, however often and in whatever order. The processes may run
the pattern of `k` or what Valet makes of the same body. -/
namespace Valor

open Reactive Flow

variable {Pc Var : Type} {Val : Var → Type} {View Ev X R V : Type} {L : Nat}

/-- What `continue_from` is given besides the string; `junk` is in the new frame. -/
structure Restart {Var : Type} (Val : Var → Type) (R : Type) where
  results : List R
  junk : Store Val

section snapshots

variable [DecidableEq Var] [∀ x, Inhabited (Val x)]

def Program.snapshots (prog : Program Pc Val Ev X R V) :
    Snapshots (State Pc Val Ev X R V) (Restart Val R) (List UInt8) where
  take := State.serialize
  restore t ser z := .running (continueFrom prog ser z.results z.junk t.out.1)

inductive Version where
  | handWritten | rewritten
  deriving DecidableEq

abbrev FleetState (Pc : Type) {Var : Type} (Val : Var → Type) (Ev X R V : Type) (L : Nat) :=
  State (KPoint Pc L) Val Ev X R V ⊕ State (VPoint Pc L) Val Ev X R V

/-- The process that runs, in either version. -/
def fleet (u : Ufser Val View) (ndebug : Bool) (b : Body Pc Var L)
    (m : Meaning b.graph Val Ev X R V) :
    Machine (FleetState Pc Val Ev X R V L) (Move Val R) (History Ev X × Status V Fault) :=
  (machine u ndebug (kProgram b m)).either (machine u ndebug (valetProgram b m))

/-- A process of the version `v` that starts the coroutine. -/
def fleetStart (b : Body Pc Var L) (m : Meaning b.graph Val Ev X R V) (args junk : Store Val) :
    Version → FleetState Pc Val Ev X R V L
  | .handWritten => .inl (.running ((kProgram b m).create args junk []))
  | .rewritten => .inr (.running ((valetProgram b m).create args junk []))

def fleetSnapshots (b : Body Pc Var L) (m : Meaning b.graph Val Ev X R V) :
    Snapshots (FleetState Pc Val Ev X R V L) (Version × Restart Val R) (List UInt8) where
  take := Sum.elim State.serialize State.serialize
  restore t ser z :=
    let h := (Sum.elim State.out State.out t).1
    match z.1 with
    | .handWritten => .inl (.running (continueFrom (kProgram b m) ser z.2.results z.2.junk h))
    | .rewritten => .inr (.running (continueFrom (valetProgram b m) ser z.2.results z.2.junk h))

end snapshots

/-- The rewritten version takes no result out of `aw`, but needs one there. -/
inductive Provides : R → Version × Restart Val R → Prop where
  | handWritten (r : R) (junk : Store Val) : Provides r (.handWritten, ⟨[r], junk⟩)
  | rewritten {r : R} {results : List R} (junk : Store Val) : results ≠ [] →
      Provides r (.rewritten, ⟨results, junk⟩)

namespace Rollback

/-- The string stored for a suspension at an await with these locals. -/
def Kept (u : Ufser Val View) (b : Body Pc Var L) (k : Fin L × Store Val) (ser : List UInt8) :
    Prop :=
  ∃ l, Agree (b.graph.liveAfter k.1) k.2 l ∧
    ser = u.serialize (k.1 + 1) (Promise.values l (b.vars k.1))

variable {b : Body Pc Var L} {m : Meaning b.graph Val Ev X R V} {u : Ufser Val View}
  {ndebug : Bool} {a : Flow.State Pc (Fin L) Val Ev X V} {n : Nat} {h : History Ev X}
  {k : Fin L × Store Val} {ser : List UInt8}

theorem hist_eq (m : Meaning b.graph Val Ev X R V) {o : History Ev X × Status V Fault}
    (same : a.out = o) : o.1 = a.hist := by
  rw [← same]
  exact out_fst m a

/-! ## The two versions -/

section handWritten

theorem k_serialize {t : State (KPoint Pc L) Val Ev X R V} (hm : Protocol.Match u b m n a t)
    (rests : (m.machine (F := Fault)).Rests a) :
    Option.Rel (Kept u b) (m.checkpoints.take a) t.serialize := by
  cases hm with
  | suspended agree saved _ => exact .some ⟨_, agree, saved⟩
  | finished => exact .none
  | _ => exact absurd rfl (rests _)

variable [DecidableEq Var] [∀ x, Inhabited (Val x)]

theorem k_continues (stored : Kept u b k ser) (r : R) (junk : Store Val) :
    Protocol.Match u b m 6 (.running (b.graph.after k.1) (m.bind k.1 r k.2) h)
      (.running (continueFrom (kProgram b m) ser [r] junk h)) := by
  obtain ⟨l₀, agree, same⟩ := stored
  refine .preamble agree ?_ (restored_elems _ _ [r])
  simp only [Protocol.Saved, restored_state]
  exact same

def kStores (rt : u.RoundTrips) (few : L < 2 ^ 16)
    (listed : ∀ s, b.graph.liveAfter s ⊆ {x | x ∈ b.vars s}) :
    (Protocol.simulation rt few listed : Simulation (m.machine (F := Fault))
      (machine u ndebug (kProgram b m)) Answers).Stores m.checkpoints (kProgram b m).snapshots
      fun r z => z.results = [r] where
  rel := Kept u b
  take hm rests _ := k_serialize hm rests
  restore {n a t k ser r z} hm _ _ stored only := by
    obtain ⟨results, junk⟩ := z
    cases only
    have hist := hist_eq m (Simulation.same_out _ hm)
    refine ⟨6, ?_⟩
    simp only [Program.snapshots, Meaning.checkpoints]
    exact hist ▸ k_continues stored r junk

end handWritten

section rewritten

theorem valet_serialize (few : L < 2 ^ 16) {t : State (VPoint Pc L) Val Ev X R V}
    [DecidableEq Var] (hm : Rewritten.Match u ndebug b m n a t)
    (rests : (m.machine (F := Fault)).Rests a)
    (rests' : ∀ c, t ≠ .running c) : Option.Rel (Kept u b) (m.checkpoints.take a) t.serialize := by
  cases hm with
  | @suspended s l l' q x _ h agree saved _ _ =>
    have small : (s.val + 1) % 2 ^ 16 = s.val + 1 := Nat.mod_eq_of_lt (by omega)
    unfold Rewritten.Saved at saved
    rw [small] at saved
    exact .some ⟨_, agree, saved⟩
  | finished => exact .none
  | silent => exact absurd rfl (rests' _)
  | _ => exact absurd rfl (rests _)

variable [DecidableEq Var] [∀ x, Inhabited (Val x)]

theorem valet_continues (rt : u.RoundTrips) (few : L < 2 ^ 16) (void : b.Void)
    (listed : ∀ s, b.graph.liveAfter s ⊆ {x | x ∈ b.vars s}) (stored : Kept u b k ser) (r : R)
    {results : List R} (some_result : results ≠ []) (junk : Store Val) :
    Rewritten.Match u ndebug b m 3 (.running (b.graph.after k.1) (m.bind k.1 r k.2) h)
      (.running (continueFrom (valetProgram b m) ser results junk h)) := by
  obtain ⟨l, agree, same⟩ := stored
  have small : (k.1.val + 1) % 2 ^ 16 = k.1.val + 1 := Nat.mod_eq_of_lt (by omega)
  let q : Promise X R := restored .initial ser results
  have saved : Rewritten.Saved u b k.1 l q := by
    unfold Rewritten.Saved
    rw [small]
    exact (restored_state _ _ _).trans same
  have occupied : q.aw.elems ≠ [] := by
    intro empty
    exact some_result (List.map_eq_nil_iff.mp ((restored_elems _ _ _).symm.trans empty))
  exact Rewritten.match_migrated rt few void listed agree saved rfl occupied r _

end rewritten

/-! ## Both side by side -/

variable [DecidableEq Var] [∀ x, Inhabited (Val x)]

/-- A process of either version follows the body while it is resumed in place. -/
def fleetSimulation (ndebug : Bool) (m : Meaning b.graph Val Ev X R V) (rt : u.RoundTrips)
    (few : L < 2 ^ 16) (void : b.Void) (listed : ∀ s, b.graph.liveAfter s ⊆ {x | x ∈ b.vars s}) :
    Simulation (m.machine (F := Fault)) (fleet u ndebug b m)
      fun r mv => Answers r mv ∧ mv = .resume r :=
  (Protocol.simulation rt few listed).either (Rewritten.inPlace ndebug m rt void)

def fleetStores (ndebug : Bool) (m : Meaning b.graph Val Ev X R V) (rt : u.RoundTrips)
    (few : L < 2 ^ 16) (void : b.Void) (listed : ∀ s, b.graph.liveAfter s ⊆ {x | x ∈ b.vars s}) :
    (fleetSimulation ndebug m rt few void listed).Stores m.checkpoints (fleetSnapshots b m)
      Provides where
  rel := Kept u b
  take {n a t} hm rests rests' := by
    cases t with
    | inl t => exact k_serialize hm rests
    | inr t =>
      apply valet_serialize few hm rests
      rintro c rfl
      exact (either_rests rests').2 _ rfl _ rfl
  restore {n a t k ser r z} hm _ _ stored provided := by
    have hist : (Sum.elim State.out State.out t).1 = a.hist :=
      hist_eq m (Simulation.same_out _ hm)
    cases provided with
    | handWritten =>
      refine ⟨6, ?_⟩
      simp only [fleetSnapshots, Meaning.checkpoints, hist]
      exact k_continues stored r _
    | rewritten junk some_result =>
      refine ⟨3, ?_⟩
      simp only [fleetSnapshots, Meaning.checkpoints, hist]
      exact valet_continues rt few void listed stored r some_result junk

end Rollback

open Rollback in
/-- A coroutine in the pattern of `k` that is put back to earlier suspensions goes on from
each as its body does, with the locals it had there and the result it is given now. -/
theorem k_rollback_transparent [DecidableEq Var] [∀ x, Inhabited (Val x)] {u : Ufser Val View}
    (ndebug : Bool) {b : Body Pc Var L} (m : Meaning b.graph Val Ev X R V) (rt : u.RoundTrips)
    (few : L < 2 ^ 16) (listed : ∀ s, b.graph.liveAfter s ⊆ {x | x ∈ b.vars s})
    (args junk : Store Val) {os : List (Order R R)} {zs : List (Order (Move Val R) (Restart Val R))}
    (orders : List.Forall₂ (Order.Matches Answers fun r z => z.results = [r]) os zs)
    (o : History Ev X × Status V Fault) :
    ((machine u ndebug (kProgram b m)).withStore (kProgram b m).snapshots).Observes zs
        (.running ((kProgram b m).create args junk []), []) o ↔
      (m.machine.withStore m.checkpoints).Observes os
        (.running b.graph.entry (overlay b.params args junk) [], []) o := by
  have start : Protocol.Match u b m 4 (.running b.graph.entry (overlay b.params args junk) [])
      (.running ((kProgram b m).create args junk [])) := .start rfl
  refine ((Protocol.simulation rt few listed).withStore (kStores rt few listed)).observes_iff
    orders (n := 4) ?_ o
  exact ⟨start, .nil⟩

/-- The first await is answered 29; then the coroutine is put back to it and gets 31. -/
theorem k_rollback_transparent_k :
    ((machine wordUfser true (kProgram k (kMeaning (· + 1)))).withStore
      (kProgram k (kMeaning (· + 1))).snapshots).Observes
      [.take, .answer (.resume 29), .restore 0 ⟨[31], fun _ => 7⟩, .answer (.resume 0)]
      (.running ((kProgram k (kMeaning (· + 1))).create (fun _ => 45) (fun _ => 0) []), [])
      ([.effect (.started 45), .effect (.firstAwait 46), .await (some 46),
        .effect (.afterAwait 29), .effect (.secondAwait 30), .await none,
        .effect (.afterAwait 31), .effect (.secondAwait 32), .await none,
        .effect (.done 46 32)], .finished 14) := by
  have orders : List.Forall₂ (Order.Matches (@Answers KVar (fun _ => UInt32) UInt32)
      fun r (z : Restart (fun _ : KVar => UInt32) UInt32) => z.results = [r])
      [.take, .answer 29, .restore 0 31, .answer 0]
      [.take, .answer (.resume 29), .restore 0 ⟨[31], fun _ => 7⟩, .answer (.resume 0)] :=
    .cons .take (.cons (.answer (.resume _)) (.cons (.restore 0 rfl)
      (.cons (.answer (.resume _)) .nil)))
  exact (k_rollback_transparent true (kMeaning (· + 1)) wordUfser_roundTrips (by decide)
    k_lists_live (fun _ => 45) (fun _ => 0) orders _).mpr ⟨20, rfl⟩

open Rollback in
/-- Strings go between the hand-written and the rewritten version of a coroutine in both
directions: a fleet of processes of either version shows what the body shows. -/
theorem fleet_rollback_transparent [DecidableEq Var] [∀ x, Inhabited (Val x)]
    {u : Ufser Val View} (ndebug : Bool) {b : Body Pc Var L} (m : Meaning b.graph Val Ev X R V)
    (rt : u.RoundTrips) (few : L < 2 ^ 16) (void : b.Void)
    (listed : ∀ s, b.graph.liveAfter s ⊆ {x | x ∈ b.vars s}) (args junk : Store Val) (v : Version)
    {os : List (Order R R)} {zs : List (Order (Move Val R) (Version × Restart Val R))}
    (orders : List.Forall₂ (Order.Matches (fun r mv => mv = .resume r) Provides) os zs)
    (o : History Ev X × Status V Fault) :
    ((fleet u ndebug b m).withStore (fleetSnapshots b m)).Observes zs
        (fleetStart b m args junk v, []) o ↔
      (m.machine.withStore m.checkpoints).Observes os
        (.running b.graph.entry (overlay b.params args junk) [], []) o := by
  have resumed : ∀ (r : R) (mv : Move Val R), mv = .resume r → Answers r mv ∧ mv = .resume r := by
    rintro r _ rfl
    exact ⟨.resume r, rfl⟩
  have orders' := orders.imp fun _ _ same => same.imp resumed
  have start : ∃ n, (fleetSimulation ndebug m rt few void listed).rel n
      (.running b.graph.entry (overlay b.params args junk) []) (fleetStart b m args junk v) := by
    cases v with
    | handWritten => exact ⟨4, Protocol.Match.start rfl⟩
    | rewritten => exact ⟨2, Rewritten.match_fresh rfl fun _ _ => rfl⟩
  obtain ⟨n, start⟩ := start
  refine ((fleetSimulation ndebug m rt few void listed).withStore
    (fleetStores ndebug m rt few void listed)).observes_iff orders' (n := n) ?_ o
  exact ⟨start, .nil⟩

/-- `f(45)` started by hand, continued in the rewritten version, and once more by hand from
the same string: each logs 45. -/
theorem fleet_rollback_transparent_log :
    ((fleet wordUfser true (logAfterAwait Set.univ) logIn).withStore
      (fleetSnapshots (logAfterAwait Set.univ) logIn)).Observes
      [.take, .restore 0 (.rewritten, ⟨[()], fun _ => 7⟩),
        .restore 0 (.handWritten, ⟨[()], fun _ => 8⟩)]
      (fleetStart (logAfterAwait Set.univ) logIn (fun _ => 45) (fun _ => 0) .handWritten, [])
      ([.await (), .effect 45, .effect 45], .finished ()) := by
  have listed : ∀ s, (logAfterAwait Set.univ).graph.liveAfter s ⊆
      {x | x ∈ (logAfterAwait Set.univ).vars s} := fun _ _ _ => List.mem_singleton_self _
  have orders : List.Forall₂ (Order.Matches
      (fun (r : Unit) (mv : Move (fun _ : Unit => UInt32) Unit) => mv = .resume r)
      (@Provides Unit (fun _ => UInt32) Unit))
      [.take, .restore 0 (), .restore 0 ()]
      [.take, .restore 0 (.rewritten, ⟨[()], fun _ => 7⟩),
        .restore 0 (.handWritten, ⟨[()], fun _ => 8⟩)] :=
    .cons .take (.cons (.restore 0 (.rewritten _ (List.cons_ne_nil _ _)))
      (.cons (.restore 0 (.handWritten () _)) .nil))
  exact (fleet_rollback_transparent true logIn wordUfser_roundTrips (by decide)
    (logAfterAwait_void _) listed (fun _ => 45) (fun _ => 0) .handWritten orders _).mpr ⟨9, rfl⟩

/-! ## What a string says -/

namespace Rollback

/-- In front of an await and suspended there, the promise holds the number of the await and
the locals as they are. -/
def Faithful (u : Ufser Val View) (b : Body Pc Var L) (m : Meaning b.graph Val Ev X R V) :
    State (VPoint Pc L) Val Ev X R V → Prop
  | .created _ => False
  | .running c => ∀ s, c.pc = .await s → Rewritten.Saved u b s c.locals c.promise
  | .suspended c _ bind next =>
    ∃ s, c.pc = .await s ∧ bind = m.bind s ∧ next = .label s ∧
      Rewritten.Saved u b s c.locals c.promise
  | .finished _ _ | .faulted _ _ => True

variable [DecidableEq Var] {b : Body Pc Var L} {m : Meaning b.graph Val Ev X R V}
  {u : Ufser Val View} {ndebug : Bool}

theorem faithful_step {c : Config (VPoint Pc L) Val Ev X R}
    (faithful : Faithful u b m (.running c)) :
    Faithful u b m (execute u ndebug c ((valetProgram b m).fetch c.pc)) := by
  obtain ⟨pc, l, q, h⟩ := c
  cases pc with
  | preamble =>
    simp only [valetProgram, execute]
    split
    · trivial
    · rintro s ⟨⟩
    · split
      · trivial
      · split
        · rename_i st _ _ _ pc found
          rintro s rfl
          have listed := List.mem_of_getElem? found
          simp at listed
        · trivial
  | user p =>
    cases e : b.graph.node p with
    | code r w next others =>
      rw [Rewritten.execute_user_code u ndebug e]
      rintro s ⟨⟩
    | await s =>
      rw [Rewritten.execute_user_await u ndebug e]
      rintro s' ⟨⟩
      rfl
    | ret r => simp only [valetProgram, e, execute, Faithful]
  | await s =>
    have saved := faithful s rfl
    refine ⟨s, rfl, rfl, rfl, ?_⟩
    exact (Promise.awaitTransform_state q _).trans saved
  | label s =>
    simp only [valetProgram, execute]
    split
    · rintro s' ⟨⟩
    · trivial

variable [∀ x, Inhabited (Val x)]

theorem faithful_answer {t : State (VPoint Pc L) Val Ev X R V} {k : Move Val R → _}
    (faithful : Faithful u b m t) (waits : (machine u ndebug (valetProgram b m)).turn t = .wait k)
    (mv : Move Val R) : Faithful u b m (k mv) := by
  cases t with
  | created c => exact faithful.elim
  | suspended c a bind next =>
    obtain ⟨s, _, rfl, rfl, _⟩ := faithful
    cases waits
    cases mv with
    | resume r =>
      simp only [answer, resume]
      split
      · rintro s' ⟨⟩
      · trivial
    | migrate results junk => rintro s' ⟨⟩
  | _ => cases waits

theorem faithful_leads {args junk : Store Val} {ms : List (Move Val R)}
    {t : State (VPoint Pc L) Val Ev X R V} (leads : (machine u ndebug (valetProgram b m)).Leads
      (.running ((valetProgram b m).create args junk [])) ms t) : Faithful u b m t := by
  apply leads.keeps (Faithful u b m) (fun _ => True)
  · intro t t' faithful turn
    cases t with
    | running c =>
      cases turn
      exact faithful_step faithful
    | _ => cases turn
  · intro t k faithful waits mv _
    exact faithful_answer faithful waits mv
  · exact fun _ _ => trivial
  · rintro s ⟨⟩

end Rollback

open Rollback in
/-- However a rewritten coroutine came to a suspension, migrations and any results included,
its string leads to the label behind the await and sets the listed locals to what they are. -/
theorem valet_serialize_faithful [DecidableEq Var] [∀ x, Inhabited (Val x)] {u : Ufser Val View}
    (ndebug : Bool) {b : Body Pc Var L} (m : Meaning b.graph Val Ev X R V) (rt : u.RoundTrips)
    {args junk : Store Val} {ms : List (Move Val R)} {c : Config (VPoint Pc L) Val Ev X R}
    {a : Stored X R} {bind : R → Store Val → Store Val} {next : VPoint Pc L}
    (leads : (machine u ndebug (valetProgram b m)).Leads
      (.running ((valetProgram b m).create args junk [])) ms (.suspended c a bind next)) :
    ∃ s, c.pc = .await s ∧ next = .label s ∧ ∀ p : Promise X R, p.state = c.promise.state →
      p.stage u = .ok ((s + 1) % 2 ^ 16) ∧
      (p.aw.elems ≠ [] → ∀ l, p.load u (b.vars s) l = .ok (overlay (b.vars s) c.locals l)) := by
  obtain ⟨s, here, _, label, saved⟩ := faithful_leads leads
  refine ⟨s, here, label, fun p same => ?_⟩
  have saved' : Rewritten.Saved u b s c.locals p := same.trans saved
  exact ⟨Rewritten.stage_saved rt saved', fun occupied l =>
    Rewritten.load_saved rt saved' occupied l⟩

/-- `f(45)` at its await. -/
theorem valet_serialize_faithful_log :
    ∃ s : Fin 1, (VPoint.await 0 : VPoint LogLine 1) = .await s ∧
      (VPoint.label 0 : VPoint LogLine 1) = .label s ∧
      ∀ p : Promise Unit Unit, p.state = be32 1 ++ be32 45 →
        p.stage (@wordUfser Unit) = .ok ((s + 1) % 2 ^ 16) ∧
        (p.aw.elems ≠ [] → ∀ l : Store fun _ : Unit => UInt32,
          p.load wordUfser [()] l = .ok (overlay [()] (fun _ => 45) l)) := by
  have leads : (machine wordUfser true (valetProgram (logAfterAwait Set.univ) logIn)).Leads
      (.running ((valetProgram (logAfterAwait Set.univ) logIn).create (fun _ => 45) (fun _ => 0)
        [])) [] (.suspended ⟨.await 0, fun _ => 45,
        ⟨be32 1 ++ be32 45, ⟨[some (.awaiter ())], 1, 1⟩⟩,
        [.await ()]⟩ (.ref 1 0) (logIn.bind 0) (.label 0)) := by
    exact .step rfl (.step rfl (.step rfl (.here _)))
  exact valet_serialize_faithful true logIn wordUfser_roundTrips leads

end Valor
