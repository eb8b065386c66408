import Mathlib.Logic.Equiv.Defs
import Valor.Lib.Flow

/-! Graphs whose await points get other names. The runs of a renamed graph show what the runs
of the graph show. -/
namespace Flow

open Reactive

variable {Pc Site Site' Var : Type} {Val : Var → Type} {Ev X R V F : Type}

def Node.mapSite (f : Site → Site') : Node Pc Site Var → Node Pc Site' Var
  | .code r w q qs => .code r w q qs
  | .await s => .await (f s)
  | .ret r => .ret r

def Graph.renamed (g : Graph Pc Site Var) (e : Site ≃ Site') : Graph Pc Site' Var where
  entry := g.entry
  node p := (g.node p).mapSite e
  operand s := g.operand (e.symm s)
  uses s := g.uses (e.symm s)
  binds s := g.binds (e.symm s)
  after s := g.after (e.symm s)

section nodes

variable {g : Graph Pc Site Var} {e : Site ≃ Site'} {p : Pc}

theorem renamed_code {r w : Set Var} {q : Pc} {qs : List Pc} :
    (g.renamed e).node p = .code r w q qs ↔ g.node p = .code r w q qs := by
  cases node : g.node p <;> simp [Graph.renamed, Node.mapSite, node]

theorem renamed_await {s : Site'} :
    (g.renamed e).node p = .await s ↔ g.node p = .await (e.symm s) := by
  cases node : g.node p <;> simp [Graph.renamed, Node.mapSite, node, Equiv.eq_symm_apply]

theorem renamed_ret {r : Set Var} : (g.renamed e).node p = .ret r ↔ g.node p = .ret r := by
  cases node : g.node p <;> simp [Graph.renamed, Node.mapSite, node]

theorem live_renamed {x : Var} : (g.renamed e).Live x p ↔ g.Live x p := by
  constructor
  · intro live
    induction live with
    | read h hx => exact .read (renamed_code.mp h) hx
    | pass h hx mem _ ih => exact .pass (renamed_code.mp h) hx mem ih
    | operand h hx => exact .operand (renamed_await.mp h) hx
    | used h hx => exact .used (renamed_await.mp h) hx
    | resumed h hx _ ih => exact .resumed (renamed_await.mp h) hx ih
    | value h hx => exact .value (renamed_ret.mp h) hx
  · intro live
    have await : ∀ {q s}, g.node q = .await s → (g.renamed e).node q = .await (e s) := by
      intro q s h
      exact renamed_await.mpr (by rw [h, e.symm_apply_apply])
    induction live with
    | read h hx => exact .read (renamed_code.mpr h) hx
    | pass h hx mem _ ih => exact .pass (renamed_code.mpr h) hx mem ih
    | operand h hx => exact .operand (await h) (by simpa [Graph.renamed] using hx)
    | used h hx => exact .used (await h) (by simpa [Graph.renamed] using hx)
    | resumed h hx _ ih =>
      exact .resumed (await h) (by simpa [Graph.renamed] using hx)
        (by simpa [Graph.renamed] using ih)
    | value h hx => exact .value (renamed_ret.mpr h) hx

theorem liveAfter_renamed (g : Graph Pc Site Var) (e : Site ≃ Site') (s : Site') :
    (g.renamed e).liveAfter s = g.liveAfter (e.symm s) := by
  unfold Graph.liveAfter
  simp only [live_renamed]
  rfl

end nodes

def Meaning.renamed {g : Graph Pc Site Var} (m : Meaning g Val Ev X R V) (e : Site ≃ Site') :
    Meaning (g.renamed e) Val Ev X R V where
  effects := m.effects
  assign := m.assign
  branch := m.branch
  operand s := m.operand (e.symm s)
  bind s := m.bind (e.symm s)
  value := m.value
  effects_reads h := m.effects_reads (renamed_code.mp h)
  branch_reads h := m.branch_reads (renamed_code.mp h)
  branch_mem h := m.branch_mem (renamed_code.mp h)
  assign_reads h := m.assign_reads (renamed_code.mp h)
  assign_frame h := m.assign_frame (renamed_code.mp h)
  operand_reads agree := m.operand_reads agree
  bind_reads agree := m.bind_reads agree
  bind_frame away := m.bind_frame away
  value_reads h := m.value_reads (renamed_ret.mp h)

def State.mapSite (f : Site → Site') : State Pc Site Val Ev X V → State Pc Site' Val Ev X V
  | .running p l h => .running p l h
  | .waiting s l h => .waiting (f s) l h
  | .finished v h => .finished v h

variable {g : Graph Pc Site Var} (m : Meaning g Val Ev X R V) (e : Site ≃ Site')

theorem execute_renamed (p : Pc) (l : Store Val) (h : History Ev X) :
    (m.renamed e).execute p l h = (m.execute p l h).mapSite e := by
  cases node : g.node p with
  | code r w q qs =>
    rw [Meaning.execute_code node, Meaning.execute_code (renamed_code.mpr node)]
    rfl
  | await s =>
    have here : (g.renamed e).node p = .await (e s) :=
      renamed_await.mpr (by rw [node, e.symm_apply_apply])
    rw [Meaning.execute_await node, Meaning.execute_await here]
    simp only [Meaning.renamed, e.symm_apply_apply, State.mapSite]
  | ret r =>
    rw [Meaning.execute_ret node, Meaning.execute_ret (renamed_ret.mpr node)]
    rfl

def renamedRun : Simulation (m.machine (F := F)) ((m.renamed e).machine) Eq where
  rel _ s t := t = s.mapSite e
  same_out := by
    rintro n s _ rfl
    cases s <;> rfl
  progress := by
    rintro n s _ rfl
    cases s with
    | running p l h =>
      exact .inr (.inl ⟨0, _, _, rfl, congrArg Turn.step (execute_renamed m e p l h), rfl⟩)
    | waiting s l h =>
      refine .inr (.inr (.inl ⟨_, _, rfl, rfl, ?_⟩))
      rintro r _ rfl
      have back : e.symm (e s) = s := e.symm_apply_apply s
      refine ⟨0, ?_⟩
      change State.running (g.after (e.symm (e s))) (m.bind (e.symm (e s)) r l) h = _
      rw [back]
      rfl
    | finished v h => exact .inr (.inr (.inr ⟨rfl, rfl⟩))

theorem renamed_observes_iff (rs : List R) (p : Pc) (l : Store Val) (h : History Ev X)
    (o : History Ev X × Status V F) : (m.renamed e).machine.Observes rs (.running p l h) o ↔
      m.machine.Observes rs (.running p l h) o :=
  (renamedRun m e).observes_iff (List.forall₂_refl rs) (n := 0) (s := .running p l h)
    (t := .running p l h) rfl o

end Flow
