import Valor.Lib.Flow

/-! Meanings made to order. A scripted meaning takes a given way through its graph and marks
chosen points or the reads of a chosen variable, so that a run tells whether it came to such
a point, or which value it saw. They show that an analysis of graphs is exact. -/
namespace Flow

open Reactive

variable {Pc Site Var : Type} {Val : Var → Type} {Ev X R V F : Type} {g : Graph Pc Site Var}

def State.hist : State Pc Site Val Ev X V → History Ev X
  | .running _ _ h | .waiting _ _ h | .finished _ h => h

theorem out_fst (m : Meaning g Val Ev X R V) (s : State Pc Site Val Ev X V) :
    ((m.machine (F := F)).out s).1 = s.hist := by
  cases s <;> rfl

theorem execute_hist (m : Meaning g Val Ev X R V) (p : Pc) (l : Store Val) (h : History Ev X) :
    h <+: (m.execute p l h).hist := by
  unfold Meaning.execute
  split
  · exact List.prefix_append _ _
  · exact List.prefix_append _ _
  · exact List.prefix_rfl

/-- Nothing seen is taken back. -/
theorem hist_prefix (m : Meaning g Val Ev X R V) {is : List R} {s : State Pc Site Val Ev X V}
    {o : History Ev X × Status V F} (h : m.machine.Observes is s o) : s.hist <+: o.1 := by
  obtain ⟨n, rfl⟩ := h
  rw [out_fst]
  apply (m.machine (F := F)).run_invariant (s.hist <+: ·.hist)
  · intro t t' before turn
    cases t with
    | running p l h =>
      cases Turn.step.inj turn
      exact before.trans (execute_hist m p l h)
    | _ => cases turn
  · intro t k before turn r
    cases t with
    | waiting s l h =>
      cases Turn.wait.inj turn
      exact before
    | _ => cases turn
  · exact List.prefix_rfl

/-- Between two suspensions something is seen: the await itself. -/
theorem suspended_later (m : Meaning g Val Ev X R V) {is : List R} {p : Pc} {l : Store Val}
    {h : History Ev X} : ¬ m.machine.Observes is (.running p l h) (h, (.suspended : Status V F)) := by
  rintro ⟨n, hn⟩
  have invariant : let t := (m.machine (F := F)).run n is (.running p l h)
      h <+: t.hist ∧ ∀ s l', t ≠ .waiting s l' h := by
    apply (m.machine (F := F)).run_invariant fun t => h <+: t.hist ∧ ∀ s l', t ≠ .waiting s l' h
    · rintro t t' ⟨before, _⟩ turn
      cases t with
      | running p' l' h' =>
        cases Turn.step.inj turn
        refine ⟨before.trans (execute_hist m p' l' h'), fun s l'' same => ?_⟩
        unfold Meaning.execute at same
        split at same
        · cases same
        · injection same with _ _ longer
          have := before.length_le
          have := congrArg List.length longer
          simp [State.hist] at *
          omega
        · cases same
      | _ => cases turn
    · rintro t k ⟨before, _⟩ turn r
      cases t with
      | waiting s l' h' =>
        cases Turn.wait.inj turn
        exact ⟨before, nofun⟩
      | _ => cases turn
    · exact ⟨List.prefix_rfl, nofun⟩
  cases e : (m.machine (F := F)).run n is (.running p l h) with
  | waiting s l' h' =>
    rw [e] at hn invariant
    have same : h' = h := congrArg Prod.fst hn
    exact invariant.2 s l' (by rw [same])
  | _ =>
    rw [e] at hn
    cases congrArg Prod.snd hn

/-- Some schedule of answers shows something of `s` that it never shows of `t`. -/
def Apart (m : Meaning g Val Ev X R V) (F : Type) (s t : State Pc Site Val Ev X V) : Prop :=
  ∃ is o, (m.machine (F := F)).Observes is s o ∧ ¬ (m.machine (F := F)).Observes is t o

section apart

variable {m : Meaning g Val Ev X R V} {p q : Pc} {l l' : Store Val} {h : History Ev X}

theorem Apart.of_step {s t : State Pc Site Val Ev X V} {e : Event Ev X}
    (hs : m.execute p l h = s) (ht : m.execute q l' h = t) (grown : s.hist = h ++ [e])
    (apart : Apart m F s t) : Apart m F (.running p l h) (.running q l' h) := by
  obtain ⟨is, o, seen, unseen⟩ := apart
  have turn : ∀ p l, (m.machine (F := F)).turn (.running p l h) = .step (m.execute p l h) :=
    fun _ _ => rfl
  refine ⟨is, o, ?_, ?_⟩
  · rw [Machine.observes_step _ (turn p l), hs]
    exact .inr seen
  · rw [Machine.observes_step _ (turn q l'), ht]
    rintro (now | later)
    · have longer := hist_prefix m seen
      rw [← now, grown] at longer
      exact absurd longer.length_le (by simp [Meaning.machine, State.out])
    · exact unseen later

theorem Apart.of_out (now : (m.execute p l h).out ≠ (h, (.running : Status V F)))
    (never : ∀ is, ¬ (m.machine (F := F)).Observes is (m.execute q l' h) (m.execute p l h).out) :
    Apart m F (.running p l h) (.running q l' h) := by
  have turn : ∀ p l, (m.machine (F := F)).turn (.running p l h) = .step (m.execute p l h) :=
    fun _ _ => rfl
  refine ⟨[], (m.execute p l h).out, ?_, ?_⟩
  · rw [Machine.observes_step _ (turn p l)]
    exact .inr ⟨0, rfl⟩
  · rw [Machine.observes_step _ (turn q l')]
    rintro (same | seen)
    · exact now same.symm
    · exact never [] seen

theorem out_grown {e : Event Ev X} (left : (m.execute p l h).hist = h ++ [e]) (st : Status V F) :
    (m.execute p l h).out ≠ (h, st) := by
  intro same
  have out : (m.execute p l h).out.1 = h ++ [e] := (out_fst (F := F) m _).trans left
  have := congrArg List.length (out.symm.trans (congrArg Prod.fst same))
  simp at this

theorem Apart.of_event {e e' : Event Ev X} (left : (m.execute p l h).hist = h ++ [e])
    (right : (m.execute q l' h).hist = h ++ [e']) (differ : e ≠ e') :
    Apart m F (.running p l h) (.running q l' h) := by
  apply Apart.of_out (out_grown left _)
  intro is seen
  have before := hist_prefix m seen
  have out : (m.execute p l h).out.1 = h ++ [e] := (out_fst (F := F) m _).trans left
  rw [out, right] at before
  have same := before.eq_of_length (by simp)
  simp only [List.append_cancel_left_eq, List.cons.injEq, and_true] at same
  exact differ same.symm

theorem Apart.of_event_ret {e : Event Ev X} {v : V} (left : (m.execute p l h).hist = h ++ [e])
    (right : m.execute q l' h = .finished v h) : Apart m F (.running p l h) (.running q l' h) := by
  apply Apart.of_out (out_grown left _)
  intro is seen
  rw [right, Machine.observes_halt _ rfl] at seen
  exact out_grown left _ seen.symm

theorem Apart.of_ret_event {e : Event Ev X} {v : V} (left : m.execute p l h = .finished v h)
    (right : (m.execute q l' h).hist = h ++ [e]) : Apart m F (.running p l h) (.running q l' h) := by
  apply Apart.of_out
  · rw [left]
    simp [State.out]
  · intro is seen
    have before := hist_prefix m seen
    rw [left, right] at before
    exact absurd before.length_le (by simp [State.out])

theorem Apart.of_ret {v v' : V} (left : m.execute p l h = .finished v h)
    (right : m.execute q l' h = .finished v' h) (differ : v ≠ v') :
    Apart m F (.running p l h) (.running q l' h) := by
  apply Apart.of_out
  · rw [left]
    simp [State.out]
  · intro is seen
    rw [left, right, Machine.observes_halt _ rfl] at seen
    simp only [Meaning.machine, State.out, Prod.mk.injEq, true_and, Status.finished.injEq] at seen
    exact differ seen.symm

theorem Apart.of_wait {s s' : Site} (r : R) (apart : Apart m F
    (.running (g.after s) (m.bind s r l) h) (.running (g.after s') (m.bind s' r l') h)) :
    Apart m F (.waiting s l h) (.waiting s' l' h) := by
  obtain ⟨is, o, seen, unseen⟩ := apart
  refine ⟨r :: is, o, ?_, ?_⟩
  · rw [Machine.observes_wait _ rfl]
    exact .inr seen
  · rw [Machine.observes_wait _ rfl]
    rintro (now | later)
    · rw [← now] at seen
      exact suspended_later m seen
    · exact unseen later

end apart

/-! ### Scripted meanings -/

/-- What is told apart at the points of a graph; a mark may look at the locals read there. -/
structure Mark (g : Graph Pc Site Var) (Val : Var → Type) where
  point : Pc → Store Val → Bool
  site : Site → Store Val → Bool
  code_reads : ∀ {p r w q qs l m}, g.node p = .code r w q qs → Agree r l m → point p l = point p m
  ret_reads : ∀ {p r l m}, g.node p = .ret r → Agree r l m → point p l = point p m
  site_reads : ∀ {s l m}, Agree (g.operand s) l m → site s l = site s m

open Classical in
/-- The way is `script`, by the number of events so far; whatever is written gets its value
in `c`. -/
noncomputable def scripted (g : Graph Pc Site Var) (mark : Mark g Val) (script : Nat → Pc)
    (c : Store Val) : Meaning g Val Bool Bool Unit Bool where
  effects p _ l := [mark.point p l]
  assign p _ l := match g.node p with
    | .code _ w _ _ => fun x => if x ∈ w then c x else l x
    | _ => l
  branch p h _ := match g.node p with
    | .code _ _ q qs => if script h.length ∈ q :: qs then script h.length else q
    | _ => p
  operand s _ l := mark.site s l
  bind s _ l := fun x => if x ∈ g.binds s then c x else l x
  value p _ l := mark.point p l
  effects_reads e agree := congrArg (fun b => [b]) (mark.code_reads e agree)
  branch_reads _ _ := rfl
  branch_mem e := by
    simp only [e]
    split
    · assumption
    · exact List.mem_cons_self
  assign_reads e _ x hx := by simp only [e, if_pos hx]
  assign_frame e hx := by simp only [e, if_neg hx]
  operand_reads agree := mark.site_reads agree
  bind_reads _ x hx := by simp only [if_pos hx]
  bind_frame hx := by simp only [if_neg hx]
  value_reads e agree := mark.ret_reads e agree

/-- The script goes through `path`, the first of it at time `n`. -/
def Follows (script : Nat → Pc) : Nat → List Pc → Prop
  | _, [] => True
  | n, q :: path => script n = q ∧ Follows script (n + 1) path

theorem follows_append {script : Nat → Pc} {n : Nat} {path path' : List Pc} :
    Follows script n (path ++ path') ↔
      Follows script n path ∧ Follows script (n + path.length) path' := by
  induction path generalizing n with
  | nil => simp [Follows]
  | cons q path ih =>
    have shift : n + 1 + path.length = n + (path.length + 1) := by omega
    simp only [List.cons_append, Follows, ih, List.length_cons, shift, and_assoc]

theorem follows_getD (path : List Pc) (p : Pc) : Follows (fun n => path.getD n p) 0 path := by
  have shifted : ∀ pre, Follows (fun n => (pre ++ path).getD n p) pre.length path := by
    induction path with
    | nil => exact fun _ => trivial
    | cons q path ih =>
      intro pre
      refine ⟨by simp, ?_⟩
      have next := ih (pre ++ [q])
      simpa using next
  exact shifted []

section scripted

variable {mark : Mark g Val} {script : Nat → Pc} {c l : Store Val} {p : Pc} {s : Site}
  {h : History Bool Bool}

theorem scripted_code (mark : Mark g Val) (c l : Store Val) {r w q qs q'}
    (e : g.node p = .code r w q qs) (mem : q' ∈ q :: qs) (way : script h.length = q') : (scripted g mark script c).execute p l h =
      .running q' ((scripted g mark script c).assign p h l) (h ++ [.effect (mark.point p l)]) := by
  have branch : (scripted g mark script c).branch p h l = q' := by
    simp only [scripted, e]
    rw [way]
    exact if_pos mem
  rw [Meaning.execute_code e, branch]
  rfl

theorem scripted_await (mark : Mark g Val) (script : Nat → Pc) (c l : Store Val)
    (e : g.node p = .await s) : (scripted g mark script c).execute p l h =
    .waiting s l (h ++ [.await (mark.site s l)]) :=
  Meaning.execute_await e

theorem scripted_ret (mark : Mark g Val) (script : Nat → Pc) (c l : Store Val) {r}
    (e : g.node p = .ret r) :
    (scripted g mark script c).execute p l h = .finished (mark.point p l) h :=
  Meaning.execute_ret e

theorem scripted_assign_self : (scripted g mark script c).assign p h c = c := by
  funext x
  cases e : g.node p <;> simp [scripted, e]

theorem scripted_bind_self : (scripted g mark script c).bind s () c = c := by
  funext x
  exact ite_self _

theorem scripted_assign_frame {r w q qs x} (e : g.node p = .code r w q qs) (hx : x ∉ w) :
    (scripted g mark script c).assign p h l x = l x :=
  (scripted g mark script c).assign_frame e hx

theorem scripted_bind_frame {x} (hx : x ∉ g.binds s) :
    (scripted g mark script c).bind s () l x = l x :=
  (scripted g mark script c).bind_frame hx

end scripted

/-- The control points that some run may come to. -/
inductive Graph.Reach (g : Graph Pc Site Var) : Pc → Prop where
  | entry : g.Reach g.entry
  | code {p r w q qs q'} : g.Reach p → g.node p = .code r w q qs → q' ∈ q :: qs → g.Reach q'
  | await {p s} : g.Reach p → g.node p = .await s → g.Reach (g.after s)

/-- Where a state is in its graph. -/
def Graph.At (g : Graph Pc Site Var) : State Pc Site Val Ev X V → Prop
  | .running p _ _ => g.Reach p
  | .waiting s _ _ => ∃ p, g.Reach p ∧ g.node p = .await s
  | .finished _ _ => True

theorem at_run (m : Meaning g Val Ev X R V) (n : Nat) (is : List R)
    {s : State Pc Site Val Ev X V} (start : g.At s) : g.At ((m.machine (F := F)).run n is s) := by
  refine (m.machine (F := F)).run_invariant g.At ?_ ?_ n is s start
  · intro t t' here turn
    cases t with
    | running p l h =>
      cases Turn.step.inj turn
      cases e : g.node p with
      | code r w q qs => rw [Meaning.execute_code e]; exact .code here e (m.branch_mem e)
      | await s => rw [Meaning.execute_await e]; exact ⟨p, here, e⟩
      | ret r => rw [Meaning.execute_ret e]; trivial
    | _ => cases turn
  · intro t k here turn r
    cases t with
    | waiting s l h =>
      cases Turn.wait.inj turn
      obtain ⟨p, reach, e⟩ := here
      exact .await reach e
    | _ => cases turn

/-- A reachable point is reached by a script, with the locals it started with. -/
theorem reach_leads (F : Type) {p : Pc} (reach : g.Reach p) : ∃ path, ∀ (mark : Mark g Val) script c,
    Follows script 0 path → ∃ is h, h.length = path.length ∧
      ((scripted g mark script c).machine (F := F)).Leads (.running g.entry c []) is
        (.running p c h) := by
  induction reach with
  | entry => exact ⟨[], fun _ _ _ _ => ⟨[], [], rfl, .here _⟩⟩
  | @code p r w q qs q' _ e mem ih =>
    obtain ⟨path, leads⟩ := ih
    refine ⟨path ++ [q'], fun mark script c follows => ?_⟩
    obtain ⟨before, here⟩ := follows_append.mp follows
    obtain ⟨is, h, length, way⟩ := leads mark script c before
    have next := scripted_code mark c c e mem (h := h) (by rw [length]; simpa using here.1)
    rw [scripted_assign_self] at next
    refine ⟨is ++ [], _, ?_, way.trans (.step (congrArg Turn.step next) (.here _))⟩
    simp [length]
  | @await p s _ e ih =>
    obtain ⟨path, leads⟩ := ih
    refine ⟨path ++ [g.after s], fun mark script c follows => ?_⟩
    obtain ⟨is, h, length, way⟩ := leads mark script c (follows_append.mp follows).1
    have next := scripted_await mark script c c (h := h) e
    refine ⟨is ++ [()], h ++ [.await (mark.site s c)], by simp [length],
      way.trans (.step (congrArg Turn.step next) (.wait rfl ?_))⟩
    rw [scripted_bind_self]
    exact .here _

section marks

open Classical

/-- Marks the reads of `x` that yield `v`. -/
noncomputable def Mark.reads (g : Graph Pc Site Var) (x : Var) (v : Val x) : Mark g Val where
  point p l := match g.node p with
    | .code r _ _ _ | .ret r => decide (x ∈ r ∧ l x = v)
    | .await _ => false
  site s l := decide (x ∈ g.operand s ∧ l x = v)
  code_reads e agree := by
    simp only [e, decide_eq_decide]
    exact and_congr_right fun hx => by rw [agree x hx]
  ret_reads e agree := by
    simp only [e, decide_eq_decide]
    exact and_congr_right fun hx => by rw [agree x hx]
  site_reads agree := by
    simp only [decide_eq_decide]
    exact and_congr_right fun hx => by rw [agree x hx]

/-- Marks the point `p`. -/
noncomputable def Mark.at' (g : Graph Pc Site Var) (Val : Var → Type) (p : Pc) : Mark g Val where
  point q _ := decide (q = p)
  site s _ := decide (g.node p = .await s)
  code_reads _ _ := rfl
  ret_reads _ _ := rfl
  site_reads _ := rfl

end marks

section told_apart

variable {x : Var} {p q : Pc} {script : Nat → Pc} {c l l' : Store Val} {h : History Bool Bool}

/-- Code that marks the two stores alike leads on, and otherwise tells them apart. -/
theorem apart_code {mark : Mark g Val} {r w n ns q'} (e : g.node p = .code r w n ns)
    (mem : q' ∈ n :: ns) (way : script h.length = q')
    (rest : Apart (scripted g mark script c) F
      (.running q' ((scripted g mark script c).assign p h l) (h ++ [.effect (mark.point p l)]))
      (.running q' ((scripted g mark script c).assign p h l') (h ++ [.effect (mark.point p l)]))) :
    Apart (scripted g mark script c) F (.running p l h) (.running p l' h) := by
  have left := scripted_code mark c l e mem way
  have right := scripted_code mark c l' e mem way
  by_cases same : mark.point p l = mark.point p l'
  · rw [← same] at right
    exact .of_step left right rfl rest
  · exact .of_event (by rw [left]; rfl) (by rw [right]; rfl) (by simpa using same)

theorem apart_await {mark : Mark g Val} {s : Site} (e : g.node p = .await s)
    (rest : Apart (scripted g mark script c) F
      (.running (g.after s) ((scripted g mark script c).bind s () l) (h ++ [.await (mark.site s l)]))
      (.running (g.after s) ((scripted g mark script c).bind s () l') (h ++ [.await (mark.site s l)]))) :
    Apart (scripted g mark script c) F (.running p l h) (.running p l' h) := by
  have left := scripted_await mark script c l (h := h) e
  have right := scripted_await mark script c l' (h := h) e
  by_cases same : mark.site s l = mark.site s l'
  · rw [← same] at right
    exact .of_step left right rfl (.of_wait () rest)
  · exact .of_event (by rw [left]; rfl) (by rw [right]; rfl) (by simpa using same)

/-- Two stores that differ on a live variable are told apart. -/
theorem live_apart (F : Type) (Val : Var → Type) (novalue : ∀ s, g.uses s = ∅) (live : g.Live x p) :
    ∃ path, ∀ script (c l : Store Val) h, Follows script h.length path → l x ≠ c x →
      Apart (scripted g (Mark.reads g x (c x)) script c) F (.running p c h) (.running p l h) := by
  induction live with
  | @read p r w q qs e hx =>
    refine ⟨[q], fun script c l h follows differ => ?_⟩
    have run := fun l => scripted_code (Mark.reads g x (c x)) c l e List.mem_cons_self follows.1
    apply Apart.of_event (by rw [run]; rfl) (by rw [run]; rfl)
    simp [Mark.reads, e, hx, differ]
  | @pass p r w q qs q' e hx mem live ih =>
    obtain ⟨path, apart⟩ := ih
    refine ⟨q' :: path, fun script c l h follows differ => ?_⟩
    apply apart_code e mem follows.1
    rw [scripted_assign_self]
    apply apart
    · simpa using follows.2
    · rwa [scripted_assign_frame e hx]
  | @operand p s e hx =>
    refine ⟨[], fun script c l h _ differ => ?_⟩
    have run := fun l => scripted_await (Mark.reads g x (c x)) script c l (h := h) e
    apply Apart.of_event (by rw [run]; rfl) (by rw [run]; rfl)
    simp [Mark.reads, hx, differ]
  | @used p s e hx =>
    rw [novalue] at hx
    exact absurd hx (Set.notMem_empty x)
  | @resumed p s e hx live ih =>
    obtain ⟨path, apart⟩ := ih
    refine ⟨g.after s :: path, fun script c l h follows differ => ?_⟩
    apply apart_await e
    rw [scripted_bind_self]
    apply apart
    · simpa using follows.2
    · rwa [scripted_bind_frame hx]
  | @value p r e hx =>
    refine ⟨[], fun script c l h _ differ => ?_⟩
    have run := fun l => scripted_ret (Mark.reads g x (c x)) script c l (h := h) e
    apply Apart.of_ret (run c) (run l)
    simp [Mark.reads, e, hx, differ]

/-- The same point, as far as a run can tell. -/
def Graph.SamePoint (g : Graph Pc Site Var) (p q : Pc) : Prop :=
  p = q ∨ ∃ s, g.node p = .await s ∧ g.node q = .await s

theorem Graph.SamePoint.symm (same : g.SamePoint p q) : g.SamePoint q p := by
  rcases same with rfl | ⟨s, hp, hq⟩
  · exact .inl rfl
  · exact .inr ⟨s, hq, hp⟩

theorem Graph.SamePoint.observes_iff {m : Meaning g Val Ev X R V} {h : History Ev X}
    (same : g.SamePoint p q) {is : List R} {o : History Ev X × Status V F} :
    m.machine.Observes is (.running p l h) o ↔ m.machine.Observes is (.running q l h) o := by
  rcases same with rfl | ⟨s, hp, hq⟩
  · exact Iff.rfl
  · have turn : ∀ p, g.node p = .await s → (m.machine (F := F)).turn (.running p l h) =
        .step (.waiting s l (h ++ [.await (m.operand s h l)])) :=
      fun _ e => congrArg Turn.step (Meaning.execute_await e)
    rw [Machine.observes_step _ (turn p hp), Machine.observes_step _ (turn q hq)]
    exact Iff.rfl

/-- Two points that are not the same are told apart. -/
theorem point_apart (differ : ¬ g.SamePoint p q) :
    Apart (scripted g (Mark.at' g Val p) script c) F (.running p l h) (.running q l' h) := by
  have ne : q ≠ p := fun same => differ (.inl same.symm)
  have here : (Mark.at' g Val p).point p l = true := by simp [Mark.at']
  have there : (Mark.at' g Val p).point q l' = false := by simp [Mark.at', ne]
  have code : ∀ {q r w n ns} l, g.node q = .code r w n ns →
      ((scripted g (Mark.at' g Val p) script c).execute q l h).hist =
        h ++ [.effect ((Mark.at' g Val p).point q l)] := by
    intro q r w n ns l e
    rw [Meaning.execute_code e]
    rfl
  have await : ∀ {q s} l, g.node q = .await s →
      ((scripted g (Mark.at' g Val p) script c).execute q l h).hist =
        h ++ [.await ((Mark.at' g Val p).site s l)] := by
    intro q s l e
    rw [scripted_await _ _ _ _ e]
    rfl
  have away : ∀ {s}, g.node q = .await s → (Mark.at' g Val p).site s l' = false := by
    intro s e
    simp only [Mark.at', decide_eq_false_iff_not]
    exact fun e' => differ (.inr ⟨s, e', e⟩)
  cases e : g.node p with
  | code r w n ns =>
    cases e' : g.node q with
    | code r' w' n' ns' => exact .of_event (code l e) (code l' e') (by simp [here, there])
    | await s' => exact .of_event (code l e) (await l' e') nofun
    | ret r' => exact .of_event_ret (code l e) (scripted_ret _ _ _ _ e')
  | await s =>
    cases e' : g.node q with
    | code r' w' n' ns' => exact .of_event (await l e) (code l' e') nofun
    | await s' =>
      have marked : (Mark.at' g Val p).site s l = true := by simp [Mark.at', e]
      exact .of_event (await l e) (await l' e') (by simp [marked, away e'])
    | ret r' => exact .of_event_ret (await l e) (scripted_ret _ _ _ _ e')
  | ret r =>
    cases e' : g.node q with
    | code r' w' n' ns' => exact .of_ret_event (scripted_ret _ _ _ _ e) (code l' e')
    | await s' => exact .of_ret_event (scripted_ret _ _ _ _ e) (await l' e')
    | ret r' => exact .of_ret (scripted_ret _ _ _ _ e) (scripted_ret _ _ _ _ e') (by simp [here, there])

end told_apart

end Flow
