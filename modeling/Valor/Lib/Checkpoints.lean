import Valor.Lib.Steering

/-! Machines with a store of snapshots: a state that rests can be stored, and the run can be
put back to anything in the store, any number of times. A simulation that relates what is
stored carries over to the machines with stores. -/
namespace Reactive

variable {S T U I J K I' J' K' O : Type*}

/-- What is stored of a state, and the state that a stored one is put back to; it may keep
something of the state that is left. -/
structure Snapshots (S J K : Type*) where
  take : S → Option K
  restore : S → K → J → S

inductive Order (I J : Type*) where
  | answer (i : I)
  | take
  | restore (n : Nat) (j : J)

inductive Order.Matches (Answers : I → I' → Prop) (Restores : J → J' → Prop) :
    Order I J → Order I' J' → Prop where
  | answer {i i'} : Answers i i' → Matches Answers Restores (.answer i) (.answer i')
  | take : Matches Answers Restores .take .take
  | restore (n : Nat) {j j'} :
    Restores j j' → Matches Answers Restores (.restore n j) (.restore n j')

theorem Order.Matches.imp {Answers Answers' : I → I' → Prop} {Restores : J → J' → Prop}
    (answers : ∀ i i', Answers i i' → Answers' i i') {o : Order I J} {o' : Order I' J'}
    (same : Order.Matches Answers Restores o o') : Order.Matches Answers' Restores o o' := by
  cases same with
  | answer same => exact .answer (answers _ _ same)
  | take => exact .take
  | restore n same => exact .restore n same

/-- The orders to a state at rest. An order to restore what is not there is ignored. -/
def Snapshots.obey (a : Snapshots S J K) (s : S) (store : List K) (resume : I → S) :
    Order I J → S × List K
  | .answer i => (resume i, store)
  | .take => (s, store ++ (a.take s).toList)
  | .restore n j =>
    match store[n]? with
    | some k => (a.restore s k j, store)
    | none => (s, store)

/-- A state that has halted can still be left for a stored one. -/
def Machine.withStore (M : Machine S I O) (a : Snapshots S J K) :
    Machine (S × List K) (Order I J) O where
  turn c :=
    match M.turn c.1 with
    | .step s => .step (s, c.2)
    | .wait resume => .wait (a.obey c.1 c.2 resume)
    | .halt => .wait (a.obey c.1 c.2 fun _ => c.1)
  out c := M.out c.1

def Machine.Rests (M : Machine S I O) (s : S) : Prop := ∀ s', M.turn s ≠ .step s'

/-- What two machines store is related, and brings related states back. -/
structure Simulation.Stores {A : Machine S I O} {C : Machine T I' O} {Matches : I → I' → Prop}
    (sim : Simulation A C Matches) (a : Snapshots S J K) (c : Snapshots T J' K')
    (Restores : J → J' → Prop) where
  rel : K → K' → Prop
  take : ∀ {n s t}, sim.rel n s t → A.Rests s → C.Rests t → Option.Rel rel (a.take s) (c.take t)
  restore : ∀ {n s t k k' j j'}, sim.rel n s t → A.Rests s → C.Rests t → rel k k' →
    Restores j j' → ∃ m, sim.rel m (a.restore s k j) (c.restore t k' j')

section stores

variable {A : Machine S I O} {C : Machine T I' O} {Matches : I → I' → Prop}
  {sim : Simulation A C Matches} {a : Snapshots S J K} {c : Snapshots T J' K'}
  {Restores : J → J' → Prop}

theorem Simulation.Stores.taken (st : sim.Stores a c Restores) {n : Nat} {s : S} {t : T}
    (related : sim.rel n s t) (rests : A.Rests s) (rests' : C.Rests t) :
    List.Forall₂ st.rel (a.take s).toList (c.take t).toList := by
  have pair := st.take related rests rests'
  cases h : a.take s with
  | none =>
    rw [h] at pair
    cases h' : c.take t with
    | none => exact .nil
    | some k' =>
      rw [h'] at pair
      cases pair
  | some k =>
    rw [h] at pair
    cases h' : c.take t with
    | none =>
      rw [h'] at pair
      cases pair
    | some k' =>
      rw [h'] at pair
      cases pair with
      | some same => exact .cons same .nil

/-- Related states at rest obey matching orders alike. -/
theorem Simulation.Stores.obeyed (st : sim.Stores a c Restores) {n : Nat} {s : S} {t : T}
    {store : List K} {store' : List K'} {resume : I → S} {resume' : I' → T}
    (related : sim.rel n s t) (rests : A.Rests s) (rests' : C.Rests t)
    (stored : List.Forall₂ st.rel store store')
    (answered : ∀ i i', Matches i i' → ∃ m, sim.rel m (resume i) (resume' i'))
    {o : Order I J} {o' : Order I' J'} (orders : Order.Matches Matches Restores o o') :
    ∃ m, sim.rel m (a.obey s store resume o).1 (c.obey t store' resume' o').1 ∧
      List.Forall₂ st.rel (a.obey s store resume o).2 (c.obey t store' resume' o').2 := by
  cases orders with
  | answer same =>
    obtain ⟨m, h⟩ := answered _ _ same
    exact ⟨m, h, stored⟩
  | take => exact ⟨n, related, List.rel_append stored (st.taken related rests rests')⟩
  | restore i same =>
    simp only [Snapshots.obey]
    have length := stored.length_eq
    by_cases inside : i < store.length
    · have inside' : i < store'.length := length ▸ inside
      have pair := (List.forall₂_iff_get.mp stored).2 i inside inside'
      simp only [List.getElem?_eq_getElem inside, List.getElem?_eq_getElem inside']
      obtain ⟨m, h⟩ := st.restore related rests rests' pair same
      exact ⟨m, h, stored⟩
    · have outside : store[i]? = none := List.getElem?_eq_none (Nat.le_of_not_lt inside)
      have outside' : store'[i]? = none :=
        List.getElem?_eq_none (Nat.le_of_not_lt (length ▸ inside))
      simp only [outside, outside']
      exact ⟨n, related, stored⟩

theorem rests_of_wait {M : Machine S I O} {s : S} {k : I → S} (h : M.turn s = .wait k) :
    M.Rests s := by
  intro s' step
  rw [h] at step
  cases step

theorem rests_of_halt {M : Machine S I O} {s : S} (h : M.turn s = .halt) : M.Rests s := by
  intro s' step
  rw [h] at step
  cases step

def Simulation.withStore (sim : Simulation A C Matches) (st : sim.Stores a c Restores) :
    Simulation (A.withStore a) (C.withStore c) (Order.Matches Matches Restores) where
  rel n p q := sim.rel n p.1 q.1 ∧ List.Forall₂ st.rel p.2 q.2
  same_out h := sim.same_out h.1
  progress := by
    rintro n ⟨s, store⟩ ⟨t, store'⟩ ⟨related, stored⟩
    simp only at related stored
    rcases sim.progress related with ⟨m, t', less, ht, h⟩ | ⟨m, s', t', hs, ht, h⟩ |
      ⟨k, l, hs, ht, h⟩ | ⟨hs, ht⟩
    · refine .inl ⟨m, (t', store'), less, ?_, h, stored⟩
      simp only [Machine.withStore, ht]
    · refine .inr (.inl ⟨m, (s', store), (t', store'), ?_, ?_, h, stored⟩)
      · simp only [Machine.withStore, hs]
      · simp only [Machine.withStore, ht]
    · refine .inr (.inr (.inl ⟨a.obey s store k, c.obey t store' l, ?_, ?_, ?_⟩))
      · simp only [Machine.withStore, hs]
      · simp only [Machine.withStore, ht]
      · intro o o' orders
        exact st.obeyed related (rests_of_wait hs) (rests_of_wait ht) stored h orders
    · refine .inr (.inr (.inl ⟨a.obey s store fun _ => s, c.obey t store' fun _ => t, ?_, ?_, ?_⟩))
      · simp only [Machine.withStore, hs]
      · simp only [Machine.withStore, ht]
      · intro o o' orders
        exact st.obeyed related (rests_of_halt hs) (rests_of_halt ht) stored
          (fun _ _ _ => ⟨n, related⟩) orders

end stores

/-! ## Machines side by side -/

def Turn.map (g : S → T) : Turn S I → Turn T I
  | .step s => .step (g s)
  | .wait resume => .wait fun i => g (resume i)
  | .halt => .halt

/-- The states of either machine; a turn stays in its machine. -/
def Machine.either (C : Machine T I O) (D : Machine U I O) : Machine (T ⊕ U) I O where
  turn
    | .inl t => (C.turn t).map .inl
    | .inr u => (D.turn u).map .inr
  out := Sum.elim C.out D.out

section either

variable {A : Machine S I O} {C : Machine T J O} {D : Machine U J O}
  {Matches Matches' : I → J → Prop}

theorem either_rests {v : T ⊕ U} (rests : (C.either D).Rests v) :
    (∀ t, v = .inl t → C.Rests t) ∧ ∀ u, v = .inr u → D.Rests u := by
  constructor
  · rintro t rfl t' step
    exact rests (.inl t') (congrArg (Turn.map Sum.inl) step)
  · rintro u rfl u' step
    exact rests (.inr u') (congrArg (Turn.map Sum.inr) step)

/-- Two machines that follow a third do so side by side. -/
def Simulation.either (sim : Simulation A C Matches) (sim' : Simulation A D Matches') :
    Simulation A (C.either D) (fun i j => Matches i j ∧ Matches' i j) where
  rel n s := Sum.elim (sim.rel n s) (sim'.rel n s)
  same_out := by
    rintro n s (t | u) related
    · exact sim.same_out related
    · exact sim'.same_out related
  progress := by
    rintro n s (t | u) related
    · rcases sim.progress related with ⟨m, t', less, ht, h⟩ | ⟨m, s', t', hs, ht, h⟩ |
        ⟨k, l, hs, ht, h⟩ | ⟨hs, ht⟩
      · exact .inl ⟨m, .inl t', less, congrArg (Turn.map Sum.inl) ht, h⟩
      · exact .inr (.inl ⟨m, s', .inl t', hs, congrArg (Turn.map Sum.inl) ht, h⟩)
      · exact .inr (.inr (.inl ⟨k, _, hs, congrArg (Turn.map Sum.inl) ht,
          fun i j same => h i j same.1⟩))
      · exact .inr (.inr (.inr ⟨hs, congrArg (Turn.map Sum.inl) ht⟩))
    · rcases sim'.progress related with ⟨m, u', less, hu, h⟩ | ⟨m, s', u', hs, hu, h⟩ |
        ⟨k, l, hs, hu, h⟩ | ⟨hs, hu⟩
      · exact .inl ⟨m, .inr u', less, congrArg (Turn.map Sum.inr) hu, h⟩
      · exact .inr (.inl ⟨m, s', .inr u', hs, congrArg (Turn.map Sum.inr) hu, h⟩)
      · exact .inr (.inr (.inl ⟨k, _, hs, congrArg (Turn.map Sum.inr) hu,
          fun i j same => h i j same.2⟩))
      · exact .inr (.inr (.inr ⟨hs, congrArg (Turn.map Sum.inr) hu⟩))

end either

end Reactive

namespace Flow

open Reactive

variable {Pc Site Var : Type} {Val : Var → Type} {Ev X R V : Type}

/-- Where a run waits and its locals there. What has happened is not undone by going back. -/
def Meaning.checkpoints {g : Graph Pc Site Var} (m : Meaning g Val Ev X R V) :
    Snapshots (State Pc Site Val Ev X V) R (Site × Store Val) where
  take
    | .waiting s l _ => some (s, l)
    | _ => none
  restore t k r := .running (g.after k.1) (m.bind k.1 r k.2) t.hist

end Flow
