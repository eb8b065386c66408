import Valor.Lib.Renaming
import Valor.Runtime.Rewritten

/-! The order of the stages. It only decides which number a `co_await` has in its save, at its
label and in the jump table, and the order of the variables only how the string is laid out;
neither is seen from outside. -/
namespace Valor

open Reactive Flow

variable {Pc Var : Type} {Val : Var → Type} {View Ev X R V : Type} {L : Nat}

/-- The body whose stages come in another order, with other lists of variables. -/
def Body.rearranged (b : Body Pc Var L) (e : Equiv.Perm (Fin L)) (vars : Fin L → List Var) :
    Body Pc Var L where
  graph := b.graph.renamed e
  params := b.params
  vars := vars

namespace Renumbering

variable {b : Body Pc Var L} {e : Equiv.Perm (Fin L)} {vars : Fin L → List Var}

theorem void_rearranged (void : b.Void) : (b.rearranged e vars).Void :=
  fun s => void (e.symm s)

end Renumbering

open Renumbering Rewritten in
/-- While it is resumed in place a rewritten coroutine shows the same whatever the order of
its stages and whatever they list, and also when it is migrated if they list what is needed. -/
theorem stage_order_irrelevant [DecidableEq Var] [∀ x, Inhabited (Val x)] {u : Ufser Val View}
    (ndebug : Bool) {b : Body Pc Var L} (m : Meaning b.graph Val Ev X R V) (rt : u.RoundTrips)
    (void : b.Void) (e : Equiv.Perm (Fin L)) (vars : Fin L → List Var) (args junk : Store Val)
    (o : History Ev X × Status V Fault) :
    (∀ rs : List R,
      (valetProgram (b.rearranged e vars) (m.renamed e)).Observes u ndebug args junk
          (rs.map .resume) o ↔
        (valetProgram b m).Observes u ndebug args junk (rs.map .resume) o) ∧
    (L < 2 ^ 16 → (∀ s, b.graph.liveAfter s ⊆ {x | x ∈ b.vars s}) →
      (∀ s, b.graph.liveAfter s ⊆ {x | x ∈ vars (e s)}) →
      ∀ (rs : List R) (ms ms' : List (Move Val R)), List.Forall₂ Continues rs ms →
        List.Forall₂ Continues rs ms' →
        ((valetProgram (b.rearranged e vars) (m.renamed e)).Observes u ndebug args junk ms o ↔
          (valetProgram b m).Observes u ndebug args junk ms' o)) := by
  have void' : (b.rearranged e vars).Void := void_rearranged void
  have bodies : ∀ rs : List R,
      (m.renamed e).machine.Observes rs (.running b.graph.entry (overlay b.params args junk) []) o ↔
        m.machine.Observes rs (.running b.graph.entry (overlay b.params args junk) []) o :=
    fun rs => renamed_observes_iff m e rs _ _ _ o
  constructor
  · intro rs
    have other := in_place_observes_iff (b := b.rearranged e vars) ndebug (m.renamed e) rt void'
      args junk rs o
    have own := in_place_observes_iff ndebug m rt void args junk rs o
    exact other.trans ((bodies rs).trans own.symm)
  · intro few listed listed' rs ms ms' schedule schedule'
    have needed : ∀ s, (b.rearranged e vars).graph.liveAfter s ⊆ {x | x ∈ vars s} := by
      intro s
      have own := listed' (e.symm s)
      rw [e.apply_symm_apply] at own
      exact (liveAfter_renamed b.graph e s).trans_subset own
    have other := migrating_observes_iff (b := b.rearranged e vars) ndebug (m.renamed e) rt few
      void' needed args junk schedule o
    have same := migrating_observes_iff ndebug m rt few void listed args junk schedule' o
    exact other.trans ((bodies rs).trans same.symm)

/-! `ser_ctx<> f(int in) { co_await remote_op(); log(in); co_await remote_op(); log(in); }` -/

inductive TwoAwaits where
  | start | log | between | logAgain | exit

def twoAwaits : Body TwoAwaits Unit 2 where
  graph := {
    entry := .start
    node := fun
      | .start => .await ⟨0, Nat.zero_lt_two⟩
      | .log => .code Set.univ ∅ .between []
      | .between => .await ⟨1, Nat.one_lt_two⟩
      | .logAgain => .code Set.univ ∅ .exit []
      | .exit => .ret ∅
    operand := fun _ => ∅
    uses := fun _ => ∅
    binds := fun _ => ∅
    after := fun s => if s.val = 0 then .log else .logAgain }
  params := [()]
  vars := fun _ => [()]

def twoLogs : Meaning twoAwaits.graph (fun _ => UInt32) UInt32 Unit Unit Unit where
  effects
    | .log, _, l | .logAgain, _, l => [l ()]
    | _, _, _ => []
  assign _ _ l := l
  branch
    | .log, _, _ => .between
    | _, _, _ => .exit
  operand _ _ _ := ()
  bind _ _ l := l
  value _ _ _ := ()
  effects_reads := by
    intro p r w q qs h l m e agree
    have same : l () = m () := by
      cases p <;> cases e <;> exact agree () trivial
    cases p <;> cases e <;> simp only [same]
  branch_reads := by
    intro p r w q qs h l m e agree
    cases p <;> rfl
  branch_mem := by
    intro p r w q qs h l e
    cases p <;> cases e <;> exact List.mem_cons_self
  assign_reads := by
    intro p r w q qs h l m e agree
    cases p <;> cases e <;> exact fun _ hx => absurd hx (Set.notMem_empty _)
  assign_frame _ _ := rfl
  operand_reads _ := rfl
  bind_reads _ _ hx := absurd hx (Set.notMem_empty _)
  bind_frame _ := rfl
  value_reads _ _ := rfl

/-- The second await has number 1 and the first number 2, and `in` is listed twice. -/
theorem stage_order_irrelevant_swap :
    (valetProgram (twoAwaits.rearranged (Equiv.swap 0 1) fun _ => [(), ()])
        (twoLogs.renamed (Equiv.swap 0 1))).Observes wordUfser true (fun _ => 45) (fun _ => 0)
      [.migrate [()] (fun _ => 7), .migrate [()] (fun _ => 8)]
      ([.await (), .effect 45, .await (), .effect 45], .finished ()) := by
  have listed : ∀ s, twoAwaits.graph.liveAfter s ⊆ {x | x ∈ twoAwaits.vars s} :=
    fun _ _ _ => List.mem_singleton_self _
  have listed' : ∀ s, twoAwaits.graph.liveAfter s ⊆ {x | x ∈ [(), ()]} :=
    fun _ _ _ => List.mem_cons_self
  have moved : ∀ junk : Store (fun _ : Unit => UInt32),
      Rewritten.Continues () (.migrate [()] junk) := fun junk =>
    .migrate junk (List.cons_ne_nil _ _)
  have stayed : Rewritten.Continues () (.resume () : Move (fun _ : Unit => UInt32) Unit) :=
    .resume ()
  have void : twoAwaits.Void := fun _ => ⟨rfl, rfl⟩
  have same := (stage_order_irrelevant true twoLogs wordUfser_roundTrips void (Equiv.swap 0 1)
    (fun _ => [(), ()]) (fun _ => 45) (fun _ => 0)
    ([.await (), .effect 45, .await (), .effect 45], .finished ())).2 (by decide) listed listed'
    [(), ()] _ [.resume (), .resume ()]
    (.cons (moved fun _ => 7) (.cons (moved fun _ => 8) .nil)) (.cons stayed (.cons stayed .nil))
  exact same.mpr ⟨20, rfl⟩

end Valor
