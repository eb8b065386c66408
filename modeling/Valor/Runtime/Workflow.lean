import Valor.Lib.Steering
import Valor.Runtime.Rewritten

/-! The way of restoring a coroutine that needs no result of the await: `serialize()` at a
suspension, a new call, `deserialize()`, `operator()`. As nothing is put into `aw`, no load
reads the state. -/
namespace Valor

open Reactive Flow

variable {Pc Var : Type} {Val : Var → Type} {View Ev X R V : Type} {L : Nat}

/-- `serialize()` on a coroutine that is suspended. -/
def State.serialize : State Pc Val Ev X R V → Option (List UInt8)
  | .created c | .suspended c _ _ _ => some c.promise.state
  | _ => none

variable [DecidableEq Var]

/-- A new call of the function that is given the string. -/
def Program.reload (prog : Program Pc Val Ev X R V) (ser : List UInt8) (args junk : Store Val)
    (h : History Ev X) : Config Pc Val Ev X R :=
  let c := prog.create args junk h
  { c with promise := deserialize c.promise ser }

/-- At every suspension, the restored coroutine goes on as the original one does. -/
def WorkflowRestores [∀ x, Inhabited (Val x)] (u : Ufser Val View) (ndebug : Bool)
    (prog : Program Pc Val Ev X R V) : Prop :=
  ∀ (args junk : Store Val) (rs : List R) n ser,
    ((machine u ndebug prog).run n (rs.map .resume) (.created (prog.create args junk []))).serialize
      = some ser →
    let t := (machine u ndebug prog).run n (rs.map .resume) (.created (prog.create args junk []))
    ∀ (args' junk' : Store Val) (rs' : List R) o,
      (machine u ndebug prog).Observes (rs'.map .resume) t o ↔
      (machine u ndebug prog).Observes (rs'.map .resume)
        (.created (prog.reload ser args' junk' t.out.1)) o

/-- Where the body goes on when it is started with what await `s` saved. -/
def resumption (b : Body Pc Var L) (s : Fin L) : Pc :=
  if _ : (s.val + 1) % 2 ^ 16 = 0 then b.graph.entry
  else b.graph.after ⟨(s.val + 1) % 2 ^ 16 - 1, Rewritten.narrowed_lt s⟩

/-- Nothing with more than one value is needed at a suspension, and the number saved there,
a `uint16_t`, leads back there. The end of the scope of a variable is a point of the graph
that reads it if its destructor does. -/
structure Restorable (Val : Var → Type) (b : Body Pc Var L) : Prop where
  at_entry : ∀ x, b.graph.Live x b.graph.entry → Subsingleton (Val x)
  at_await : ∀ p s, b.graph.Reach p → b.graph.node p = .await s →
    b.graph.SamePoint (resumption b s) (b.graph.after s) ∧
    ∀ x, b.graph.Live x (b.graph.after s) → Subsingleton (Val x)

namespace Workflow

open Rewritten

variable {b : Body Pc Var L} {m : Meaning b.graph Val Ev X R V} {u : Ufser Val View}
  {ndebug : Bool} {p q : Pc} {l l' : Store Val} {pr : Promise X R} {h : History Ev X}

theorem match_reloaded (rt : u.RoundTrips) {s : Fin L} {l₀ : Store Val} (saved : Saved u b s l₀ pr)
    (empty : pr.aw.elems = []) {n : Nat} {t : Flow.State Pc (Fin L) Val Ev X V}
    (rest : Match u ndebug b m n t (.running ⟨.user (resumption b s), l', pr, h⟩)) :
    ∃ n, Match u ndebug b m n t (.running ⟨.preamble, l', pr, h⟩) := by
  have turn := execute_preamble_saved ndebug (m := m) (c := ⟨.preamble, l', pr, h⟩) rt saved
  by_cases zero : (s.val + 1) % 2 ^ 16 = 0
  · simp only [landing, dif_pos zero] at turn
    simp only [resumption, dif_pos zero] at rest
    exact ⟨_, .silent turn rfl rest⟩
  · simp only [landing, dif_neg zero] at turn
    simp only [resumption, dif_neg zero] at rest
    exact ⟨_, .silent turn rfl (.silent (execute_label (Promise.load_empty empty _ _)) rfl rest)⟩

theorem match_same_point (same : b.graph.SamePoint q p) (agree : Agree (b.graph.live p) l l') :
    ∃ n, Match u ndebug b m n (.running p l h) (.running ⟨.user q, l', pr, h⟩) := by
  rcases same with rfl | ⟨s, hq, hp⟩
  · exact ⟨1, .user agree⟩
  · exact ⟨1, .silent (execute_user_await u ndebug hq _) rfl (.await hp agree rfl)⟩

omit [DecidableEq Var] in
theorem agree_of_subsingleton {xs : Set Var} (single : ∀ x ∈ xs, Subsingleton (Val x)) :
    Agree xs l l' := by
  intro x hx
  have := single x hx
  exact Subsingleton.elim _ _

variable [∀ x, Inhabited (Val x)]

/-- A suspended coroutine that goes on, when resumed, like the body from `p` on. -/
structure Awaits (u : Ufser Val View) (ndebug : Bool) (b : Body Pc Var L)
    (m : Meaning b.graph Val Ev X R V) (t : State (VPoint Pc L) Val Ev X R V) (p : Pc)
    (l : Store Val) (h : History Ev X) : Prop where
  out : t.out = (h, .suspended)
  goes_on : ∃ k, (machine u ndebug (valetProgram b m)).turn t = .wait k ∧
    ∀ r, ∃ n, Match u ndebug b m n (.running p l h) (k (.resume r))

theorem awaits_created {c : Config (VPoint Pc L) Val Ev X R} (start : c.pc = .preamble)
    (goes_on : ∃ n, Match u ndebug b m n (.running p l c.hist)
      (.running ⟨.preamble, c.locals, c.promise, c.hist⟩)) :
    Awaits u ndebug b m (.created c) p l c.hist := by
  obtain ⟨pc, locals, promise, hist⟩ := c
  cases start
  exact ⟨rfl, _, rfl, fun _ => goes_on⟩

theorem awaits_fresh {args junk : Store Val} (h : History Ev X)
    (agree : Agree (b.graph.live b.graph.entry) l (overlay b.params args junk)) :
    Awaits u ndebug b m (.created ((valetProgram b m).reload [] args junk h)) b.graph.entry l h :=
  awaits_created (c := (valetProgram b m).reload [] args junk h) rfl ⟨2, match_fresh rfl agree⟩

theorem awaits_reload (rt : u.RoundTrips) {s : Fin L} {l₀ : Store Val} {q : Promise X R}
    (saved : Saved u b s l₀ q) (args junk : Store Val) {n : Nat}
    (rest : Match u ndebug b m n (.running p l h)
      (.running ⟨.user (resumption b s), overlay b.params args junk, ⟨q.state, .empty⟩, h⟩)) :
    Awaits u ndebug b m (.created ((valetProgram b m).reload q.state args junk h)) p l h :=
  awaits_created (c := (valetProgram b m).reload q.state args junk h) rfl
    (match_reloaded rt (show Saved u b s l₀ ⟨q.state, .empty⟩ from saved) rfl rest)

omit [∀ x, Inhabited (Val x)] in
/-- Only a suspended coroutine matches a body that waits. -/
theorem match_waiting {s : Fin L} {n : Nat} {t : State (VPoint Pc L) Val Ev X R V}
    (hm : Match u ndebug b m n (.waiting s l h) t) : ∃ l' q x a,
      t = .suspended ⟨.await s, l', q, h⟩ a (m.bind s) (.label s) ∧
      Agree (b.graph.liveAfter s) l l' ∧ Saved u b s l' q ∧ a.awaitResume q.aw = .ok x ∧
      q.aw.elems ≠ [] := by
  have moving : ∀ {n a t}, Match u ndebug b m n a t → ∀ s l h c, a = .waiting s l h →
      t ≠ .running c := by
    intro n a t hm
    induction hm with
    | silent _ _ _ ih => exact fun s l h _ same => absurd rfl (ih s l h _ same)
    | suspended => exact nofun
    | _ => exact nofun
  cases hm with
  | suspended agree saved ready occupied => exact ⟨_, _, _, _, rfl, agree, saved, ready, occupied⟩
  | silent _ _ rest => exact absurd rfl (moving rest s l h _ rfl)

omit [∀ x, Inhabited (Val x)] in
theorem match_serialize {n : Nat} {a : Flow.State Pc (Fin L) Val Ev X V}
    {t : State (VPoint Pc L) Val Ev X R V} {ser : List UInt8} (hm : Match u ndebug b m n a t)
    (suspended : t.serialize = some ser) : ∃ s l h, a = .waiting s l h := by
  cases hm with
  | suspended => exact ⟨_, _, _, rfl⟩
  | _ => cases suspended

theorem awaits_suspended (rt : u.RoundTrips) (void : b.Void) {s : Fin L} {q : Promise X R} {x : X}
    {a : Stored X R} (agree : Agree (b.graph.liveAfter s) l l') (saved : Saved u b s l' q)
    (ready : a.awaitResume q.aw = .ok x) (occupied : q.aw.elems ≠ []) :
    Awaits u ndebug b m (.suspended ⟨.await s, l', q, h⟩ a (m.bind s) (.label s))
      (b.graph.after s) l h := by
  refine ⟨rfl, _, rfl, fun r => ⟨2, ?_⟩⟩
  have resumed : Match u ndebug b m 2 _ (.running ⟨.label s, _, q, h⟩) :=
    match_resumed rt void agree saved occupied r
  rw [bind_void void] at resumed
  simp only [answer, resume, ready]
  exact resumed

section awaiting

variable {t t' : State (VPoint Pc L) Val Ev X R V} {rs : List R}
  {o : History Ev X × Status V Fault}

theorem Awaits.observes_nil (ht : Awaits u ndebug b m t p l h) :
    (machine u ndebug (valetProgram b m)).Observes [] t o ↔ (h, .suspended) = o := by
  obtain ⟨out, k, turn, _⟩ := ht
  rw [Machine.observes_wait_nil _ turn, ← out]
  rfl

theorem Awaits.observes_cons (rt : u.RoundTrips) (void : b.Void)
    (ht : Awaits u ndebug b m t p l h) (r : R) :
    (machine u ndebug (valetProgram b m)).Observes ((r :: rs).map .resume) t o ↔
      (h, .suspended) = o ∨ m.machine.Observes rs (.running p l h) o := by
  obtain ⟨out, k, turn, rest⟩ := ht
  obtain ⟨_, hm⟩ := rest r
  have body := (inPlace ndebug m rt void).observes_iff (resumes rs) hm o
  rw [List.map_cons, Machine.observes_wait _ turn, body, ← out]
  rfl

theorem Awaits.observes_same (rt : u.RoundTrips) (void : b.Void)
    (ht : Awaits u ndebug b m t p l h) (ht' : Awaits u ndebug b m t' p l h) :
    (machine u ndebug (valetProgram b m)).Observes (rs.map .resume) t o ↔
      (machine u ndebug (valetProgram b m)).Observes (rs.map .resume) t' o := by
  cases rs with
  | nil => exact ht.observes_nil.trans ht'.observes_nil.symm
  | cons r rs => exact (ht.observes_cons rt void r).trans (ht'.observes_cons rt void r).symm

/-- Coroutines that cannot be told apart come from bodies that cannot. -/
theorem Awaits.bodies_same (rt : u.RoundTrips) (void : b.Void)
    (ht : Awaits u ndebug b m t p l h) (ht' : Awaits u ndebug b m t' q l' h) (r : R)
    (same : ∀ (rs : List R) o, (machine u ndebug (valetProgram b m)).Observes (rs.map .resume) t o ↔
      (machine u ndebug (valetProgram b m)).Observes (rs.map .resume) t' o) :
    ¬ Apart m Fault (.running p l h) (.running q l' h) := by
  rintro ⟨rs, o, seen, unseen⟩
  have later := same (r :: rs) o
  rw [ht.observes_cons rt void, ht'.observes_cons rt void] at later
  rcases later.mp (.inr seen) with now | seen'
  · rw [← now] at seen
    exact suspended_later m seen
  · exact unseen seen'

end awaiting

theorem reload_awaits_same (rt : u.RoundTrips) (ok : Restorable Val b) {s : Fin L} {l₀ : Store Val}
    (reach : b.graph.Reach p) (e : b.graph.node p = .await s) (saved : Saved u b s l₀ pr)
    (args junk : Store Val) : Awaits u ndebug b m
      (.created ((valetProgram b m).reload pr.state args junk h)) (b.graph.after s) l h := by
  obtain ⟨same, single⟩ := ok.at_await p s reach e
  have agree : Agree (b.graph.live (b.graph.after s)) l (overlay b.params args junk) :=
    agree_of_subsingleton single
  obtain ⟨_, rest⟩ := match_same_point same agree
  exact awaits_reload rt saved args junk rest

theorem restores_of_restorable (rt : u.RoundTrips) (void : b.Void) (ok : Restorable Val b)
    (ndebug : Bool) (m : Meaning b.graph Val Ev X R V) :
    WorkflowRestores u ndebug (valetProgram b m) := by
  intro args junk rs n ser suspended t args' junk' rs' o
  have fresh : ∀ args junk : Store Val, Agree (b.graph.live b.graph.entry)
      (fun _ => default) (overlay b.params args junk) :=
    fun _ _ => agree_of_subsingleton ok.at_entry
  have where_t : t = .created ((valetProgram b m).create args junk []) ∨ ∃ (n : Nat) (rs₁ : List R),
      t = (machine u ndebug (valetProgram b m)).run n (rs₁.map .resume)
        (.running ((valetProgram b m).create args junk [])) := by
    cases n with
    | zero => exact .inl rfl
    | succ n =>
      cases rs with
      | nil => exact .inl rfl
      | cons r rs₁ => exact .inr ⟨n, rs₁, rfl⟩
  rcases where_t with initial | ⟨n, rs₁, running⟩
  · have empty : ser = [] := by
      have := suspended.symm.trans (congrArg State.serialize initial)
      exact Option.some.inj this
    subst empty
    rw [initial]
    exact Awaits.observes_same rt void (awaits_fresh [] (fresh args junk))
      (awaits_fresh [] (fresh args' junk'))
  · have start : Match u ndebug b m 2 (.running b.graph.entry (overlay b.params args junk) [])
        (.running ((valetProgram b m).create args junk [])) := match_fresh rfl fun _ _ => rfl
    obtain ⟨k, _, hm⟩ := (inPlace ndebug m rt void).abstract_run n (resumes rs₁) start
    have here := at_run (F := Fault) m k rs₁
      (s := .running b.graph.entry (overlay b.params args junk) []) Graph.Reach.entry
    rw [← running] at hm
    obtain ⟨s, l, h, waiting⟩ := match_serialize hm suspended
    rw [waiting] at hm here
    obtain ⟨l', q, x, a, at_t, agree, saved, ready, occupied⟩ := match_waiting hm
    obtain ⟨p, reach, e⟩ := here
    have string : q.state = ser := by
      have := (congrArg State.serialize at_t).symm.trans suspended
      exact Option.some.inj this
    rw [at_t, ← string]
    exact Awaits.observes_same rt void (awaits_suspended rt void agree saved ready occupied)
      (reload_awaits_same rt ok reach e saved args' junk')

omit [∀ x, Inhabited (Val x)] in
theorem overlay_self (xs : List Var) (l : Store Val) : overlay xs l l = l := by
  funext x
  exact ite_self _

theorem awaits_start (l : Store Val) :
    Awaits u ndebug b m (.created ((valetProgram b m).create l l [])) b.graph.entry l [] :=
  awaits_fresh [] fun x _ => by rw [overlay_self]

theorem awaits_restored (rt : u.RoundTrips) {s : Fin L} {l₀ : Store Val} {q : Promise X R}
    (saved : Saved u b s l₀ q) (l : Store Val) :
    Awaits u ndebug b m (.created ((valetProgram b m).reload q.state l l h)) (resumption b s) l h :=
  awaits_reload rt saved l l (n := 1) (.user fun x _ => by rw [overlay_self])

/-- A body that comes to an await makes a coroutine that can be serialized there. -/
theorem suspends_of_leads (rt : u.RoundTrips) (void : b.Void) (ndebug : Bool) {c : Store Val}
    {is : List R} {s : Fin L} (r : R) (leads : (m.machine (F := Fault)).Leads
      (.running b.graph.entry c []) is (.waiting s l h)) :
    ∃ n l₀ t, ∃ q : Promise X R, (machine u ndebug (valetProgram b m)).run n ((r :: is).map .resume)
        (.created ((valetProgram b m).create c c [])) = t ∧ t.serialize = some q.state ∧
      t.out.1 = h ∧ Saved u b s l₀ q ∧ Awaits u ndebug b m t (b.graph.after s) l h := by
  have start : Match u ndebug b m 2 (.running b.graph.entry c [])
      (.running ((valetProgram b m).create c c [])) :=
    match_fresh rfl fun x _ => by rw [overlay_self]
  obtain ⟨k, hk⟩ := leads.run
  obtain ⟨n, _, hm⟩ := (inPlace ndebug m rt void).concrete_run k (resumes is) start
  rw [hk] at hm
  obtain ⟨l', q, x, a, at_t, agree, saved, ready, occupied⟩ := match_waiting hm
  have run : (machine u ndebug (valetProgram b m)).run (n + 1) ((r :: is).map .resume)
      (.created ((valetProgram b m).create c c [])) =
      .suspended ⟨.await s, l', q, h⟩ a (m.bind s) (.label s) := by
    rw [List.map_cons, Machine.run_wait _ rfl]
    exact at_t
  exact ⟨n + 1, l', _, q, run, rfl, rfl, saved, awaits_suspended rt void agree saved ready occupied⟩

theorem not_apart_of_restores (rt : u.RoundTrips) (void : b.Void)
    (restores : WorkflowRestores u ndebug (valetProgram b m)) {c : Store Val} {is : List R}
    {s : Fin L} (r : R) (leads : (m.machine (F := Fault)).Leads (.running b.graph.entry c []) is
      (.waiting s l h)) (l' : Store Val) :
    ¬ Apart m Fault (.running (b.graph.after s) l h) (.running (resumption b s) l' h) := by
  obtain ⟨n, l₀, t, q, run, serialized, hist, saved, awaits⟩ :=
    suspends_of_leads rt void ndebug r leads
  have same := restores c c (r :: is) n q.state (by rw [run]; exact serialized) l' l'
  rw [run, hist] at same
  exact awaits.bodies_same rt void (awaits_restored rt saved l') r same

end Workflow

open Workflow Rewritten in
/-- The workflow restores a coroutine, whatever its code does at the points of its graph,
exactly when the graph needs nothing that was saved. -/
theorem workflow_restores_iff [∀ x, Inhabited (Val x)] {u : Ufser Val View} (rt : u.RoundTrips)
    (ndebug : Bool) {b : Body Pc Var L} (void : b.Void) :
    (∀ (Ev X R V : Type) (m : Meaning b.graph Val Ev X R V),
      WorkflowRestores u ndebug (valetProgram b m)) ↔ Restorable Val b := by
  have novalue : ∀ s, b.graph.uses s = ∅ := fun s => (void s).1
  constructor
  · intro restores
    have point : ∀ p s, b.graph.Reach p → b.graph.node p = .await s →
        b.graph.SamePoint (resumption b s) (b.graph.after s) := by
      intro p s reach e
      by_contra differ
      obtain ⟨path, leads⟩ := reach_leads Fault reach
      let c : Store Val := fun _ => default
      obtain ⟨is, h, _, way⟩ := leads (Mark.at' b.graph Val (b.graph.after s))
        (path.getD · b.graph.entry) c (follows_getD path _)
      have way' := way.trans (.step (congrArg Turn.step (scripted_await _ _ _ _ e)) (.here _))
      exact not_apart_of_restores rt void (restores _ _ _ _ _) () way' c
        (point_apart fun same => differ same.symm)
    refine ⟨fun x live => ⟨fun v v' => ?_⟩,
      fun p s reach e => ⟨point p s reach e, fun x live => ⟨fun v v' => ?_⟩⟩⟩
    · by_contra differ
      obtain ⟨path, apart⟩ := live_apart Fault Val novalue live
      let c : Store Val := Function.update (fun _ => default) x v
      let l : Store Val := Function.update (fun _ => default) x v'
      have told := apart (path.getD · b.graph.entry) c l [] (follows_getD path _)
        (by simpa [c, l] using Ne.symm differ)
      exact (awaits_start c).bodies_same rt void (awaits_start l) ()
        (restores _ _ _ _ _ c c [] 0 _ rfl l l) told
    · by_contra differ
      obtain ⟨before, leads⟩ := reach_leads Fault reach
      obtain ⟨path, apart⟩ := live_apart Fault Val novalue live
      let c : Store Val := Function.update (fun _ => default) x v
      let l : Store Val := Function.update (fun _ => default) x v'
      -- The script leads to the await and from behind it to the read.
      have follows := follows_getD (before ++ b.graph.after s :: path) b.graph.entry
      obtain ⟨is, h, length, way⟩ := leads (Mark.reads b.graph x (c x)) _ c
        (follows_append.mp follows).1
      have way' := way.trans (.step (congrArg Turn.step (scripted_await _ _ _ _ e)) (.here _))
      obtain ⟨js, o, seen, unseen⟩ := apart _ c l
        (h ++ [.await ((Mark.reads b.graph x (c x)).site s c)])
        (by simpa [length] using (follows_append.mp follows).2.2)
        (by simpa [c, l] using Ne.symm differ)
      exact not_apart_of_restores rt void (restores _ _ _ _ _) () way' l
        ⟨js, o, seen, fun seen' => unseen ((point p s reach e).observes_iff.mp seen')⟩
  · intro ok Ev X R V m
    exact restores_of_restorable rt void ok ndebug m

/-! `ser_ctx<> f(int in) { co_await remote_op(); log(); }`, where the log line may read `in`. -/

inductive LogLine where
  | start | log | exit

def logAfterAwait (reads : Set Unit) : Body LogLine Unit 1 where
  graph := {
    entry := .start
    node := fun
      | .start => .await 0
      | .log => .code reads ∅ .exit []
      | .exit => .ret ∅
    operand := fun _ => ∅
    uses := fun _ => ∅
    binds := fun _ => ∅
    after := fun _ => .log }
  params := [()]
  vars := fun _ => [()]

theorem logAfterAwait_void (reads : Set Unit) : (logAfterAwait reads).Void :=
  fun _ => ⟨rfl, rfl⟩

theorem not_live_of_no_reads {x : Unit} {p : LogLine} : ¬ (logAfterAwait ∅).graph.Live x p := by
  intro live
  induction live with
  | @read p _ _ _ _ e hx => cases p <;> cases e; exact hx
  | pass _ _ _ _ ih => exact ih
  | operand _ hx => exact hx
  | used _ hx => exact hx
  | resumed _ _ _ ih => exact ih
  | @value p _ e hx => cases p <;> cases e; exact hx

/-- The log line is `log`. -/
def logMeaning (reads : Set Unit) (log : Store (fun _ : Unit => UInt32) → UInt32)
    (log_reads : ∀ l m, Agree reads l m → log l = log m) :
    Meaning (logAfterAwait reads).graph (fun _ => UInt32) UInt32 Unit Unit Unit where
  effects
    | .log, _, l => [log l]
    | _, _, _ => []
  assign _ _ l := l
  branch _ _ _ := .exit
  operand _ _ _ := ()
  bind _ _ l := l
  value _ _ _ := ()
  effects_reads := by
    intro p r w q qs h l m e agree
    cases p <;> cases e
    exact congrArg (fun v => [v]) (log_reads l m agree)
  branch_reads _ _ := rfl
  branch_mem := by
    intro p r w q qs h l e
    cases p <;> cases e
    exact List.mem_cons_self
  assign_reads := by
    intro p r w q qs h l m e agree
    cases p <;> cases e
    exact fun _ hx => absurd hx (Set.notMem_empty _)
  assign_frame _ _ := rfl
  operand_reads _ := rfl
  bind_reads _ _ hx := absurd hx (Set.notMem_empty _)
  bind_frame _ := rfl
  value_reads _ _ := rfl

def logIn : Meaning (logAfterAwait Set.univ).graph (fun _ => UInt32) UInt32 Unit Unit Unit :=
  logMeaning Set.univ (· ()) fun _ _ agree => agree () trivial

/-- Where the log line reads nothing, nothing is lost. -/
theorem workflow_restores_no_reads : WorkflowRestores wordUfser true
    (valetProgram (logAfterAwait ∅) (logMeaning ∅ (fun _ => 7) fun _ _ _ => rfl)) := by
  refine (workflow_restores_iff wordUfser_roundTrips true (logAfterAwait_void ∅)).mpr ⟨?_, ?_⟩ _ _ _ _ _
  · exact fun _ live => absurd live not_live_of_no_reads
  · rintro p s _ _
    refine ⟨.inl ?_, fun _ live => absurd live not_live_of_no_reads⟩
    rw [Fin.eq_zero s]
    rfl

/-- `f(45)`, serialized at its await and reloaded into `f(0)`, logs 0 and not 45. -/
theorem workflow_loses_locals :
    ¬ WorkflowRestores wordUfser true (valetProgram (logAfterAwait Set.univ) logIn) := by
  intro restores
  let prog := valetProgram (logAfterAwait Set.univ) logIn
  let reloaded : State (VPoint LogLine 1) (fun _ => UInt32) UInt32 Unit Unit Unit :=
    .created (prog.reload (be32 1 ++ be32 45) (fun _ => 0) (fun _ => 0) [.await ()])
  have same := restores (fun _ => 45) (fun _ => 0) [()] 4 (be32 1 ++ be32 45) rfl (fun _ => 0)
    (fun _ => 0) [()] ([.await (), .effect 45], .finished ())
  obtain ⟨n, hn⟩ := same.mp ⟨5, rfl⟩
  change ((machine wordUfser true prog).run n [.resume ()] reloaded).out = _ at hn
  have early : ∀ n < 6, ((machine wordUfser true prog).run n [.resume ()] reloaded).out ≠
      ([.await (), .effect 45], .finished ()) := by decide
  rcases Nat.lt_or_ge n 6 with lt | ge
  · exact early n lt hn
  · rw [Machine.run_halted _ (n := 6) rfl ge] at hn
    exact absurd hn (by decide)

end Valor
