import Valor.Runtime.Protocol

/-! Bodies as Valet leaves them: the locals are saved before every `co_await`, the label and
the load are behind it, and `aw` is never emptied. The awaits yield nothing. -/
namespace Valor

open Reactive Flow

variable {Pc Var : Type} {Val : Var → Type} {View Ev X R V : Type} {L : Nat}

inductive VPoint (Pc : Type) (L : Nat) where
  | preamble
  | user (p : Pc)
  | await (s : Fin L)
  | label (s : Fin L)

def valetProgram (b : Body Pc Var L) (m : Meaning b.graph Val Ev X R V) :
    Program (VPoint Pc L) Val Ev X R V where
  entry := .preamble
  params := b.params
  fetch
    | .preamble =>
      .dispatch (some L) (.user b.graph.entry :: List.ofFn .label) (.user b.graph.entry)
    | .user p =>
      match b.graph.node p with
      | .code _ _ _ _ => .code fun h l => (m.effects p h l, m.assign p h l, .user (m.branch p h l))
      | .await s => .save (s + 1) (b.vars s) (.await s)
      | .ret _ => .coreturn (m.value p)
    | .await s => .coawait (m.operand s) (m.bind s) (.label s)
    | .label s => .load (b.vars s) (.user (b.graph.after s))

/-- No await yields a value or changes a local. -/
def Body.Void (b : Body Pc Var L) : Prop :=
  ∀ s, b.graph.uses s = ∅ ∧ b.graph.binds s = ∅

namespace Rewritten

variable {b : Body Pc Var L} {m : Meaning b.graph Val Ev X R V} {u : Ufser Val View}
  {ndebug : Bool}

theorem bind_void (void : b.Void) (s : Fin L) (r : R) (l : Store Val) : m.bind s r l = l := by
  funext x
  apply m.bind_frame
  rw [(void s).2]
  exact Set.notMem_empty x

/-- What the promise holds from a `save` until the next one. -/
def Saved (u : Ufser Val View) (b : Body Pc Var L) (s : Fin L) (l : Store Val)
    (p : Promise X R) : Prop :=
  p.state = u.serialize ((s + 1) % 2 ^ 16) (Promise.values l (b.vars s))

theorem stage_saved (rt : u.RoundTrips) {s : Fin L} {l : Store Val} {p : Promise X R}
    (saved : Saved u b s l p) : p.stage u = .ok ((s + 1) % 2 ^ 16) :=
  Promise.stage_saved rt (Nat.mod_lt _ (by decide)) saved

variable [DecidableEq Var]

theorem load_saved (rt : u.RoundTrips) {s : Fin L} {l : Store Val} {p : Promise X R}
    (saved : Saved u b s l p) (occupied : p.aw.elems ≠ []) (l' : Store Val) :
    p.load u (b.vars s) l' = .ok (overlay (b.vars s) l l') :=
  Promise.load_saved rt (Nat.mod_lt _ (by decide)) saved occupied l'

/-- The run of the body alone against the run of the program. `silent` adds the steps the
body knows nothing of. -/
inductive Match (u : Ufser Val View) (ndebug : Bool) (b : Body Pc Var L)
    (m : Meaning b.graph Val Ev X R V) :
    Nat → Flow.State Pc (Fin L) Val Ev X V → State (VPoint Pc L) Val Ev X R V → Prop where
  | user {p l l' q h} : Agree (b.graph.live p) l l' →
      Match u ndebug b m 1 (.running p l h) (.running ⟨.user p, l', q, h⟩)
  | await {p s l l' q h} : b.graph.node p = .await s → Agree (b.graph.live p) l l' →
      Saved u b s l' q → Match u ndebug b m 0 (.running p l h) (.running ⟨.await s, l', q, h⟩)
  | suspended {s l l' q x a h} : Agree (b.graph.liveAfter s) l l' → Saved u b s l' q →
      a.awaitResume q.aw = .ok x → q.aw.elems ≠ [] →
      Match u ndebug b m 0 (.waiting s l h)
        (.suspended ⟨.await s, l', q, h⟩ a (m.bind s) (.label s))
  | finished {v h} : Match u ndebug b m 0 (.finished v h) (.finished v h)
  | silent {n s c c'} : execute u ndebug c ((valetProgram b m).fetch c.pc) = .running c' → c'.hist = c.hist →
      Match u ndebug b m n s (.running c') → Match u ndebug b m (n + 1) s (.running c)

theorem narrowed_lt (s : Fin L) : (s.val + 1) % 2 ^ 16 - 1 < L := by
  have := Nat.mod_le (s.val + 1) (2 ^ 16)
  omega

/-- Where the program goes when it is started with what await `s` saved: to the start for a
number that `uint16_t` turns into 0. -/
def landing (b : Body Pc Var L) (s : Fin L) : VPoint Pc L :=
  if _ : (s.val + 1) % 2 ^ 16 = 0 then .user b.graph.entry
  else .label ⟨(s.val + 1) % 2 ^ 16 - 1, narrowed_lt s⟩

omit [DecidableEq Var] in
theorem landing_label {s s' : Fin L} (number : (s.val + 1) % 2 ^ 16 = s'.val + 1) :
    landing b s = .label s' := by
  have nonzero : ¬ (s.val + 1) % 2 ^ 16 = 0 := by omega
  rw [landing, dif_neg nonzero]
  congr 1
  apply Fin.ext
  simp only [number, Nat.add_sub_cancel]

omit [DecidableEq Var] in
theorem landing_few (few : L < 2 ^ 16) (s : Fin L) : landing b s = .label s :=
  landing_label (Nat.mod_eq_of_lt (by omega))

section steps

variable {c : Config (VPoint Pc L) Val Ev X R}

theorem execute_preamble_fresh (fresh : c.promise.state = []) :
    execute u ndebug c ((valetProgram b m).fetch .preamble) =
      .running { c with pc := .user b.graph.entry } := by
  have hs : c.promise.stage u = .ok 0 := by simp [Promise.stage, fresh]
  simp only [valetProgram, execute, hs]

theorem execute_preamble_number (s : Fin L) (stage : c.promise.stage u = .ok (s + 1)) :
    execute u ndebug c ((valetProgram b m).fetch .preamble) =
      .running { c with pc := .label s } := by
  have allowed : ¬ L < s.val + 1 := Nat.not_lt.mpr s.isLt
  have entry : (List.ofFn (VPoint.label : Fin L → VPoint Pc L))[s.val]? = some (.label s) := by
    rw [List.getElem?_ofFn, dif_pos s.isLt]
  simp only [valetProgram, execute, stage, Option.any_some, allowed, decide_false, Bool.and_false,
    Bool.false_eq_true, if_false, List.getElem?_cons_succ, entry]

theorem execute_preamble_saved (ndebug : Bool) (rt : u.RoundTrips) {s : Fin L} {l : Store Val}
    (saved : Saved u b s l c.promise) :
    execute u ndebug c ((valetProgram b m).fetch .preamble) =
      .running { c with pc := landing b s } := by
  have hs := stage_saved rt saved
  by_cases zero : (s.val + 1) % 2 ^ 16 = 0
  · rw [zero] at hs
    simp only [valetProgram, execute, hs, landing, dif_pos zero]
  · obtain ⟨n, hn⟩ := Nat.exists_eq_succ_of_ne_zero zero
    have few : n < L := by
      have := Nat.mod_le (s.val + 1) (2 ^ 16)
      omega
    rw [hn] at hs
    rw [landing_label (show (s.val + 1) % 2 ^ 16 = (⟨n, few⟩ : Fin L).val + 1 from hn)]
    exact execute_preamble_number ⟨n, few⟩ hs

theorem execute_user_code (u : Ufser Val View) (ndebug : Bool) {p : Pc} {r w next others}
    (e : b.graph.node p = .code r w next others) (c : Config (VPoint Pc L) Val Ev X R) :
    execute u ndebug c ((valetProgram b m).fetch (.user p)) =
      .running { c with
        pc := .user (m.branch p c.hist c.locals), locals := m.assign p c.hist c.locals,
        hist := c.hist ++ (m.effects p c.hist c.locals).map .effect } := by
  simp only [valetProgram, e, execute]

theorem execute_user_await (u : Ufser Val View) (ndebug : Bool) {p : Pc} {s : Fin L}
    (e : b.graph.node p = .await s) (c : Config (VPoint Pc L) Val Ev X R) :
    execute u ndebug c ((valetProgram b m).fetch (.user p)) =
      .running { c with pc := .await s, promise := c.promise.save u (s + 1) (b.vars s) c.locals } := by
  simp only [valetProgram, e, execute]

theorem execute_label {s : Fin L} {l : Store Val}
    (loaded : c.promise.load u (b.vars s) c.locals = .ok l) :
    execute u ndebug c ((valetProgram b m).fetch (.label s)) =
      .running { c with pc := .user (b.graph.after s), locals := l } := by
  simp only [valetProgram, execute, loaded]

end steps

theorem match_fresh {l l' : Store Val} {q : Promise X R} {h : History Ev X} (fresh : q.state = [])
    (agree : Agree (b.graph.live b.graph.entry) l l') :
    Match u ndebug b m 2 (.running b.graph.entry l h) (.running ⟨.preamble, l', q, h⟩) :=
  .silent (execute_preamble_fresh (c := ⟨.preamble, l', q, h⟩) fresh) rfl (.user agree)

theorem match_label {s : Fin L} {l l' l'' : Store Val} {q : Promise X R} {h : History Ev X}
    (loaded : q.load u (b.vars s) l' = .ok l'') (agree : Agree (b.graph.live (b.graph.after s)) l l'') :
    Match u ndebug b m 2 (.running (b.graph.after s) l h) (.running ⟨.label s, l', q, h⟩) :=
  .silent (execute_label loaded) rfl (.user agree)

/-- The owner's answers to a suspended await: a result, or a migration with at least one. -/
inductive Continues : R → Move Val R → Prop where
  | resume (r : R) : Continues r (.resume r)
  | migrate {r : R} {results : List R} (junk : Store Val) : results ≠ [] →
      Continues r (.migrate results junk)

/-- In place, what the load reads is what the locals still are. -/
theorem match_resumed (rt : u.RoundTrips) (void : b.Void) {s : Fin L} {l l' : Store Val}
    {q : Promise X R} {h : History Ev X} (agree : Agree (b.graph.liveAfter s) l l')
    (saved : Saved u b s l' q) (occupied : q.aw.elems ≠ []) (r : R) :
    Match u ndebug b m 2 (.running (b.graph.after s) (m.bind s r l) h)
      (.running ⟨.label s, m.bind s r l', q, h⟩) := by
  refine match_label (load_saved rt saved occupied _) ?_
  intro x hx
  have same : overlay (b.vars s) l' (m.bind s r l') x = l' x := by
    simp [overlay, bind_void void]
  rw [same, bind_void void]
  exact agree x (.inr ⟨by simp [(void s).2], hx⟩)

/-- In a new process, the load brings back every local that is still needed. -/
theorem match_migrated (rt : u.RoundTrips) (few : L < 2 ^ 16) (void : b.Void)
    (listed : ∀ s, b.graph.liveAfter s ⊆ {x | x ∈ b.vars s}) {s : Fin L} {l l' : Store Val}
    {q q' : Promise X R} {h : History Ev X} (agree : Agree (b.graph.liveAfter s) l l')
    (saved : Saved u b s l' q) (state : q'.state = q.state) (occupied : q'.aw.elems ≠ [])
    (r : R) (junk : Store Val) :
    Match u ndebug b m 3 (.running (b.graph.after s) (m.bind s r l) h)
      (.running ⟨.preamble, junk, q', h⟩) := by
  have saved' : Saved u b s l' q' := state.trans saved
  have turn := execute_preamble_saved ndebug (m := m) (c := ⟨.preamble, junk, q', h⟩) rt saved'
  rw [landing_few few] at turn
  refine .silent turn rfl (match_label (load_saved rt saved' occupied junk) ?_)
  intro x hx
  have needed : x ∈ b.graph.liveAfter s := .inr ⟨by simp [(void s).2], hx⟩
  rw [bind_void void]
  exact (agree x needed).trans (overlay_agree l' junk (listed s) x needed)

variable [∀ x, Inhabited (Val x)]

/-- The program follows its body, also through migrations when every needed local is listed. -/
def simulation (Answer : R → Move Val R → Prop)
    (answered : ∀ {s l l' q x a h}, Agree (b.graph.liveAfter s) l l' → Saved u b s l' q →
      a.awaitResume q.aw = .ok x → q.aw.elems ≠ [] → ∀ r mv, Answer r mv →
      ∃ n, Match u ndebug b m n (.running (b.graph.after s) (m.bind s r l) h)
        (answer (valetProgram b m) ⟨.await s, l', q, h⟩
          (resume ⟨.await s, l', q, h⟩ a (m.bind s) (.label s)) mv)) :
    Simulation (m.machine (F := Fault)) (machine u ndebug (valetProgram b m)) Answer where
  rel := Match u ndebug b m
  same_out := by
    intro n s t hm
    induction hm with
    | silent turn hist _ ih => exact ih.trans (congrArg (·, Status.running) hist)
    | _ => rfl
  progress := by
    intro n s t hm
    cases hm with
    | @user p l l' q h agree =>
      cases e : b.graph.node p with
      | code r w next others =>
        obtain ⟨effects, branch, agree'⟩ := Meaning.code_agree (m := m) (h := h) e agree
        have turn := execute_user_code u ndebug (m := m) e ⟨.user p, l', q, h⟩
        refine .inr (.inl ⟨1, _, _, congrArg Turn.step (Meaning.execute_code e),
          congrArg Turn.step turn, ?_⟩)
        rw [← effects, ← branch]
        exact .user agree'
      | await s =>
        have turn := execute_user_await u ndebug (m := m) e ⟨.user p, l', q, h⟩
        exact .inl ⟨0, _, by decide, congrArg Turn.step turn, .await e agree rfl⟩
      | ret r =>
        refine .inr (.inl ⟨0, _, _, congrArg Turn.step (Meaning.execute_ret e), ?_, .finished⟩)
        simp only [machine, valetProgram, e, execute, Meaning.value_agree e agree]
    | @await p s l l' q h e agree saved =>
      obtain ⟨operand, agree'⟩ := Meaning.await_agree (m := m) (h := h) e agree
      refine .inr (.inl ⟨0, _, _, congrArg Turn.step (Meaning.execute_await e), rfl, ?_⟩)
      rw [operand]
      exact .suspended agree' ((Promise.awaitTransform_state q _).trans saved)
        (Promise.awaitTransform_resume q _) (Promise.awaitTransform_occupied q _)
    | suspended agree saved ready occupied =>
      exact .inr (.inr (.inl ⟨_, _, rfl, rfl, answered agree saved ready occupied⟩))
    | finished => exact .inr (.inr (.inr ⟨rfl, rfl⟩))
    | silent turn _ rest => exact .inl ⟨_, _, Nat.lt_succ_self _, congrArg Turn.step turn, rest⟩

/-- Resumed in place at every suspension. -/
def inPlace (ndebug : Bool) (m : Meaning b.graph Val Ev X R V) (rt : u.RoundTrips)
    (void : b.Void) :
    Simulation (m.machine (F := Fault)) (machine u ndebug (valetProgram b m))
      fun r mv => mv = .resume r :=
  simulation _ fun agree saved ready occupied r mv h => by
    subst h
    refine ⟨2, ?_⟩
    simp only [answer, resume, ready]
    exact match_resumed rt void agree saved occupied r

def migrating (ndebug : Bool) (m : Meaning b.graph Val Ev X R V) (rt : u.RoundTrips)
    (few : L < 2 ^ 16) (void : b.Void)
    (listed : ∀ s, b.graph.liveAfter s ⊆ {x | x ∈ b.vars s}) :
    Simulation (m.machine (F := Fault)) (machine u ndebug (valetProgram b m)) Continues :=
  simulation _ @fun s l l' q x a h agree saved ready occupied r mv continues => by
    cases continues with
    | resume =>
      refine ⟨2, ?_⟩
      simp only [answer, resume, ready]
      exact match_resumed rt void agree saved occupied r
    | @migrate results junk some_result =>
      refine ⟨3, match_migrated rt few void listed agree saved (restored_state _ _ _) ?_ r _⟩
      have elems := restored_elems (Promise.initial : Promise X R) q.state results
      intro empty
      exact some_result (List.map_eq_nil_iff.mp (elems.symm.trans empty))

omit [DecidableEq Var] [∀ x, Inhabited (Val x)] in
theorem resumes (rs : List R) :
    List.Forall₂ (fun r (mv : Move Val R) => mv = .resume r) rs (rs.map .resume) :=
  List.forall₂_map_right_iff.mpr (List.forall₂_same.mpr fun _ _ => rfl)

theorem in_place_observes_iff (ndebug : Bool) (m : Meaning b.graph Val Ev X R V)
    (rt : u.RoundTrips) (void : b.Void) (args junk : Store Val) (rs : List R)
    (o : History Ev X × Status V Fault) :
    (valetProgram b m).Observes u ndebug args junk (rs.map .resume) o ↔
      m.machine.Observes rs (.running b.graph.entry (overlay b.params args junk) []) o :=
  (inPlace ndebug m rt void).observes_iff (resumes rs) (match_fresh rfl fun _ _ => rfl) o

theorem migrating_observes_iff (ndebug : Bool) (m : Meaning b.graph Val Ev X R V)
    (rt : u.RoundTrips) (few : L < 2 ^ 16) (void : b.Void)
    (listed : ∀ s, b.graph.liveAfter s ⊆ {x | x ∈ b.vars s}) (args junk : Store Val)
    {rs : List R} {ms : List (Move Val R)} (schedule : List.Forall₂ Continues rs ms)
    (o : History Ev X × Status V Fault) :
    (valetProgram b m).Observes u ndebug args junk ms o ↔
      m.machine.Observes rs (.running b.graph.entry (overlay b.params args junk) []) o :=
  (migrating ndebug m rt few void listed).observes_iff schedule (match_fresh rfl fun _ _ => rfl) o

end Rewritten

end Valor
