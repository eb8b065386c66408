import Valor.Runtime.Workflow

/-! Which variables have to be saved. Migrations are not seen, whatever the code does at the
points of its graph, exactly when every await that can be reached saves what is live behind
it and has more than one value. -/
namespace Valor

open Reactive Flow

variable {Pc Var : Type} {Val : Var → Type} {View Ev X R V : Type} {L : Nat}

/-- At a suspension of any run it cannot be seen how the owner goes on. -/
def MigrationUnseen [DecidableEq Var] [∀ x, Inhabited (Val x)] (u : Ufser Val View)
    (ndebug : Bool) (prog : Program Pc Val Ev X R V) : Prop :=
  ∀ (args junk : Store Val) (rs : List R) (ms : List (Move Val R)) n,
    List.Forall₂ Rewritten.Continues rs ms → ∀ c a bind next,
      (machine u ndebug prog).run n ms (.running (prog.create args junk [])) =
        .suspended c a bind next →
      ∀ (r : R) (mv mv' : Move Val R), Rewritten.Continues r mv → Rewritten.Continues r mv' →
        ∀ (rs' : List R) (ms' : List (Move Val R)), List.Forall₂ Rewritten.Continues rs' ms' →
          ∀ o,
            (machine u ndebug prog).Observes ms' (answer prog c (resume c a bind next) mv) o ↔
              (machine u ndebug prog).Observes ms' (answer prog c (resume c a bind next) mv') o

/-- What is live behind an await that can be reached is saved there. -/
def Body.SavesLive (Val : Var → Type) (b : Body Pc Var L) : Prop :=
  ∀ p s, b.graph.Reach p → b.graph.node p = .await s →
    ∀ x, b.graph.Live x (b.graph.after s) → x ∈ b.vars s ∨ Subsingleton (Val x)

namespace Listing

open Rewritten Workflow

variable [DecidableEq Var] {b : Body Pc Var L} {m : Meaning b.graph Val Ev X R V}
  {u : Ufser Val View} {ndebug : Bool} {s : Fin L} {l l' l'' : Store Val} {q q' : Promise X R}
  {h : History Ev X}

/-- The way of a migrated coroutine to its body, with whatever its locals are then. -/
theorem match_restored (rt : u.RoundTrips) (few : L < 2 ^ 16) (saved : Saved u b s l' q)
    (state : q'.state = q.state) (occupied : q'.aw.elems ≠ []) {junk : Store Val}
    (agree : Agree (b.graph.live (b.graph.after s)) l'' (overlay (b.vars s) l' junk)) :
    Match u ndebug b m 3 (.running (b.graph.after s) l'' h)
      (.running ⟨.preamble, junk, q', h⟩) := by
  have saved' : Saved u b s l' q' := state.trans saved
  have turn := execute_preamble_saved ndebug (m := m) (c := ⟨.preamble, junk, q', h⟩) rt saved'
  rw [landing_few few] at turn
  exact .silent turn rfl (match_label (load_saved rt saved' occupied junk) agree)

theorem restored_occupied (ser : List UInt8) {results : List R} (some_result : results ≠ []) :
    (restored (.initial : Promise X R) ser results).aw.elems ≠ [] := by
  intro empty
  have elems := restored_elems (Promise.initial : Promise X R) ser results
  exact some_result (List.map_eq_nil_iff.mp (elems.symm.trans empty))

variable [∀ x, Inhabited (Val x)]

/-- Any answer to an await leads behind it, if what is live there is saved. -/
theorem match_continued (rt : u.RoundTrips) (few : L < 2 ^ 16) (void : b.Void)
    (needed : ∀ x, b.graph.Live x (b.graph.after s) → x ∈ b.vars s ∨ Subsingleton (Val x))
    (agree : Agree (b.graph.liveAfter s) l l') (saved : Saved u b s l' q) {x : X} {a : Stored X R}
    (ready : a.awaitResume q.aw = .ok x) (occupied : q.aw.elems ≠ []) {r : R} {mv : Move Val R}
    (continues : Continues r mv) : ∃ n,
      Match u ndebug b m n (.running (b.graph.after s) (m.bind s r l) h)
        (answer (valetProgram b m) ⟨.await s, l', q, h⟩
          (resume ⟨.await s, l', q, h⟩ a (m.bind s) (.label s)) mv) := by
  cases continues with
  | resume =>
    refine ⟨2, ?_⟩
    simp only [answer, resume, ready]
    exact match_resumed rt void agree saved occupied r
  | @migrate results junk some_result =>
    refine ⟨3, match_restored rt few saved (restored_state _ _ _)
      (restored_occupied _ some_result) ?_⟩
    intro y live
    rw [bind_void void]
    rcases needed y live with listed | single
    · have same : l y = l' y := agree y (.inr ⟨by simp [(void s).2], live⟩)
      rw [same, overlay, if_pos listed]
    · exact Subsingleton.elim _ _

/-- A run follows its body through migrations, as long as the body is where it can be. -/
def reaching (ndebug : Bool) (m : Meaning b.graph Val Ev X R V) (rt : u.RoundTrips)
    (few : L < 2 ^ 16) (void : b.Void) (saves : b.SavesLive Val) :
    Simulation (m.machine (F := Fault)) (machine u ndebug (valetProgram b m)) Continues where
  rel n a t := Match u ndebug b m n a t ∧ b.graph.At a
  same_out hm := (inPlace ndebug m rt void).same_out hm.1
  progress := by
    rintro n a t ⟨hm, here⟩
    have next : ∀ is, b.graph.At ((m.machine (F := Fault)).run 1 is a) :=
      fun is => at_run m 1 is here
    rcases (inPlace ndebug m rt void).progress hm with ⟨n', t', less, ht, h⟩ |
      ⟨n', a', t', ha, ht, h⟩ | ⟨k, k', ha, ht, _⟩ | halts
    · exact .inl ⟨n', t', less, ht, h, here⟩
    · have at' := next []
      rw [Machine.run_step _ ha] at at'
      exact .inr (.inl ⟨n', a', t', ha, ht, h, at'⟩)
    · refine .inr (.inr (.inl ⟨k, k', ha, ht, fun r mv continues => ?_⟩))
      have at' := next [r]
      rw [Machine.run_wait _ ha] at at'
      cases a with
      | waiting s l h =>
        obtain ⟨p, reach, node⟩ := here
        obtain ⟨l', q, x, a, rfl, agree, saved, ready, occupied⟩ := match_waiting hm
        cases ha
        cases ht
        obtain ⟨n', rest⟩ := match_continued rt few void (saves p s reach node) agree saved ready
          occupied continues
        exact ⟨n', rest, at'⟩
      | running p l h => cases ha
      | finished v h => cases ha
    · exact .inr (.inr (.inr halts))

theorem unseen_of_saves (rt : u.RoundTrips) (few : L < 2 ^ 16) (void : b.Void)
    (saves : b.SavesLive Val) (ndebug : Bool) (m : Meaning b.graph Val Ev X R V) :
    MigrationUnseen u ndebug (valetProgram b m) := by
  intro args junk rs ms n schedule c a bind next suspended r mv mv' continues continues' rs' ms'
    schedule' o
  let sim := reaching ndebug m rt few void saves
  have start : sim.rel 2 (.running b.graph.entry (overlay b.params args junk) [])
      (.running ((valetProgram b m).create args junk [])) :=
    ⟨match_fresh rfl fun _ _ => rfl, .entry⟩
  obtain ⟨k, n', related⟩ := sim.abstract_run n schedule start
  rw [suspended] at related
  rcases sim.progress related with ⟨_, _, _, ht, _⟩ | ⟨_, _, _, _, ht, _⟩ | ⟨_, _, _, ht, goes_on⟩ |
    ⟨_, ht⟩
  · cases ht
  · cases ht
  · cases ht
    obtain ⟨_, rest⟩ := goes_on r mv continues
    obtain ⟨_, rest'⟩ := goes_on r mv' continues'
    exact (sim.observes_iff schedule' rest o).trans (sim.observes_iff schedule' rest' o).symm
  · cases ht

theorem match_resumed_same (ndebug : Bool) (m : Meaning b.graph Val Ev X R V)
    (h : History Ev X) (rt : u.RoundTrips) (void : b.Void)
    (agree : Agree (b.graph.liveAfter s) l l') (saved : Saved u b s l' q) {x : X} {a : Stored X R}
    (ready : a.awaitResume q.aw = .ok x) (occupied : q.aw.elems ≠ []) (r : R) :
    Match u ndebug b m 2 (.running (b.graph.after s) l h) (answer (valetProgram b m)
      ⟨.await s, l', q, h⟩ (resume ⟨.await s, l', q, h⟩ a (m.bind s) (.label s)) (.resume r)) := by
  have resumed : Match u ndebug b m 2 _ (.running ⟨.label s, _, q, h⟩) :=
    match_resumed rt void agree saved occupied r
  rw [bind_void void] at resumed
  simp only [answer, resume, ready]
  exact resumed

/-- Where a migration is not seen, the body cannot tell what it has from what was saved. -/
theorem not_apart_of_unseen (rt : u.RoundTrips) (few : L < 2 ^ 16) (void : b.Void)
    (unseen : MigrationUnseen u ndebug (valetProgram b m)) {c : Store Val} {is : List R} (r : R)
    (leads : (m.machine (F := Fault)).Leads (.running b.graph.entry c []) is (.waiting s l h)) :
    ∃ l', ¬ Apart m Fault (.running (b.graph.after s) l h)
      (.running (b.graph.after s) (overlay (b.vars s) l' fun _ => default) h) := by
  have start : Match u ndebug b m 2 (.running b.graph.entry c [])
      (.running ((valetProgram b m).create c c [])) :=
    match_fresh rfl fun y _ => by rw [overlay_self]
  obtain ⟨k, hk⟩ := leads.run
  obtain ⟨n, _, hm⟩ := (inPlace ndebug m rt void).concrete_run k (resumes is) start
  rw [hk] at hm
  obtain ⟨l', q, y, a, suspended, agree, saved, ready, occupied⟩ := match_waiting hm
  have stays := match_resumed_same ndebug m h rt void agree saved ready occupied r
  have moves : Match u ndebug b m 3 (.running (b.graph.after s)
      (overlay (b.vars s) l' fun _ => default) h) (answer (valetProgram b m) ⟨.await s, l', q, h⟩
        (resume ⟨.await s, l', q, h⟩ a (m.bind s) (.label s))
        (.migrate [r] fun _ => default)) := by
    refine match_restored rt few saved (restored_state _ _ _)
      (restored_occupied _ (List.cons_ne_nil _ _)) ?_
    intro y _
    simp only [Program.create, overlay_self]
  refine ⟨l', ?_⟩
  rintro ⟨js, o, seen, unseen'⟩
  have schedule : ∀ rs : List R,
      List.Forall₂ Continues rs (rs.map fun r => (.resume r : Move Val R)) :=
    fun rs => (resumes rs).imp fun r _ same => same ▸ .resume r
  have same := unseen c c is _ n (schedule is) _ _ _ _ suspended r (.resume r)
    (.migrate [r] fun _ => default) (.resume r) (.migrate _ (List.cons_ne_nil _ _)) js _
    (schedule js) o
  have before := (inPlace ndebug m rt void).observes_iff (resumes js) stays o
  have after := (inPlace ndebug m rt void).observes_iff (resumes js) moves o
  exact unseen' (after.mp (same.mp (before.mpr seen)))

/-- A migration that loses something live is seen by some code. -/
theorem saved_of_unseen (rt : u.RoundTrips) (few : L < 2 ^ 16) (void : b.Void) {p : Pc} {x : Var}
    (unseen : ∀ m : Meaning b.graph Val Bool Bool Unit Bool,
      MigrationUnseen u ndebug (valetProgram b m))
    (reach : b.graph.Reach p) (e : b.graph.node p = .await s)
    (live : b.graph.Live x (b.graph.after s)) (unsaved : x ∉ b.vars s) (v : Val x) :
    v = default := by
  by_contra differ
  obtain ⟨before, leads⟩ := reach_leads Fault reach
  obtain ⟨path, apart⟩ := live_apart Fault Val (fun s => (void s).1) live
  let c : Store Val := Function.update (fun _ => default) x v
  have here : c x = v := Function.update_self _ _ _
  -- The script leads to the await and from behind it to the read.
  have follows := follows_getD (before ++ b.graph.after s :: path) b.graph.entry
  obtain ⟨is, h, length, way⟩ := leads (Mark.reads b.graph x (c x)) _ c
    (follows_append.mp follows).1
  have way' := way.trans (.step (congrArg Turn.step (scripted_await _ _ _ _ e)) (.here _))
  obtain ⟨l', same⟩ := not_apart_of_unseen rt few void (unseen _) () way'
  apply same
  apply apart
  · simpa [length] using (follows_append.mp follows).2.2
  · rw [here, overlay, if_neg unsaved]
    exact fun lost => differ lost.symm

end Listing

open Listing in
/-- Migrations of a rewritten coroutine are not seen, whatever its code does at the points of
its graph, just when what is live behind its awaits is saved at them. -/
theorem migration_unseen_iff [DecidableEq Var] [∀ x, Inhabited (Val x)] {u : Ufser Val View}
    (rt : u.RoundTrips) (ndebug : Bool) {b : Body Pc Var L} (few : L < 2 ^ 16) (void : b.Void) :
    (∀ (Ev X R V : Type) (m : Meaning b.graph Val Ev X R V),
      MigrationUnseen u ndebug (valetProgram b m)) ↔ b.SavesLive Val := by
  constructor
  · intro unseen p s reach e x live
    by_cases listed : x ∈ b.vars s
    · exact .inl listed
    · refine .inr ⟨fun v v' => ?_⟩
      have lost := saved_of_unseen rt few void (unseen Bool Bool Unit Bool) reach e live listed
      exact (lost v).trans (lost v').symm
  · intro saves Ev X R V m
    exact unseen_of_saves rt few void saves ndebug m

/-- `f(int in) { co_await remote_op(); log(in); }` saves `in`. -/
theorem migration_unseen_iff_log :
    MigrationUnseen wordUfser true (valetProgram (logAfterAwait Set.univ) logIn) := by
  have exact' := migration_unseen_iff wordUfser_roundTrips true (by decide)
    (logAfterAwait_void Set.univ)
  apply exact'.mpr
  rintro p s reach e x live
  exact .inl List.mem_cons_self

end Valor
