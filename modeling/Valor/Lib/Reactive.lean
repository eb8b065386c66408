import Mathlib.Data.List.Forall2

/-! Deterministic machines that answer inputs, and a stuttering simulation between
two of them. The concrete side may take extra silent steps; their number is bounded
by the index of the relation, so neither side can hide a divergence of the other. -/
namespace Reactive

/-- What a state does next: a silent step, a wait for an input, or nothing more. -/
inductive Turn (S I : Type*) where
  | step (s : S)
  | wait (resume : I → S)
  | halt

structure Machine (S I O : Type*) where
  turn : S → Turn S I
  out : S → O

variable {S T I J O : Type*}

/-- The state after at most `n` turns, answering the waits from the list of inputs. -/
def Machine.run (M : Machine S I O) : Nat → List I → S → S
  | 0, _, s => s
  | n + 1, is, s =>
    match M.turn s with
    | .step s' => M.run n is s'
    | .wait resume =>
      match is with
      | [] => s
      | i :: is => M.run n is (resume i)
    | .halt => s

/-- Some finite prefix of the run shows `o`. Divergent runs are observed this way too. -/
def Machine.Observes (M : Machine S I O) (is : List I) (s : S) (o : O) : Prop :=
  ∃ n, M.out (M.run n is s) = o

theorem Machine.run_step (M : Machine S I O) {s s' : S} (h : M.turn s = .step s')
    (n : Nat) (is : List I) : M.run (n + 1) is s = M.run n is s' := by
  simp only [Machine.run, h]

theorem Machine.run_wait (M : Machine S I O) {s : S} {k : I → S} (h : M.turn s = .wait k)
    (n : Nat) (i : I) (is : List I) : M.run (n + 1) (i :: is) s = M.run n is (k i) := by
  simp only [Machine.run, h]

theorem Machine.run_wait_nil (M : Machine S I O) {s : S} {k : I → S} (h : M.turn s = .wait k)
    (n : Nat) : M.run n [] s = s := by
  cases n with
  | zero => rfl
  | succ n => simp only [Machine.run, h]

theorem Machine.run_halt (M : Machine S I O) {s : S} (h : M.turn s = .halt)
    (n : Nat) (is : List I) : M.run n is s = s := by
  cases n with
  | zero => rfl
  | succ n => simp only [Machine.run, h]

theorem Machine.run_halted (M : Machine S I O) {n k : Nat} {is : List I} {s : S}
    (halted : M.turn (M.run n is s) = .halt) (le : n ≤ k) : M.run k is s = M.run n is s := by
  induction n generalizing k is s with
  | zero => exact M.run_halt halted k is
  | succ n ih =>
    obtain ⟨k, rfl⟩ := Nat.exists_eq_add_of_le' (Nat.le_trans (Nat.succ_pos n) le)
    have le' : n ≤ k := Nat.le_of_succ_le_succ le
    cases e : M.turn s with
    | step s' =>
      rw [M.run_step e] at halted
      rw [M.run_step e, M.run_step e]
      exact ih halted le'
    | wait l =>
      cases is with
      | nil => rw [M.run_wait_nil e, M.run_wait_nil e]
      | cons i is =>
        rw [M.run_wait e] at halted
        rw [M.run_wait e, M.run_wait e]
        exact ih halted le'
    | halt => rw [M.run_halt e, M.run_halt e]

/-- A property of states kept by every turn holds after every run. -/
theorem Machine.run_invariant (M : Machine S I O) (P : S → Prop)
    (step : ∀ s s', P s → M.turn s = .step s' → P s')
    (wait : ∀ s k, P s → M.turn s = .wait k → ∀ i, P (k i))
    (n : Nat) (is : List I) (s : S) (h : P s) : P (M.run n is s) := by
  induction n generalizing is s with
  | zero => exact h
  | succ n ih =>
    cases e : M.turn s with
    | step s' => rw [M.run_step e]; exact ih is s' (step s s' h e)
    | wait k =>
      cases is with
      | nil => rw [M.run_wait_nil e]; exact h
      | cons i is => rw [M.run_wait e]; exact ih is (k i) (wait s k h e i)
    | halt => rw [M.run_halt e]; exact h

theorem Machine.observes_step (M : Machine S I O) {s s' : S} (h : M.turn s = .step s')
    {is : List I} {o : O} : M.Observes is s o ↔ M.out s = o ∨ M.Observes is s' o := by
  constructor
  · rintro ⟨n, hn⟩
    cases n with
    | zero => exact .inl hn
    | succ n => exact .inr ⟨n, by rw [← M.run_step h]; exact hn⟩
  · rintro (now | ⟨n, hn⟩)
    · exact ⟨0, now⟩
    · exact ⟨n + 1, by rw [M.run_step h]; exact hn⟩

theorem Machine.observes_wait (M : Machine S I O) {s : S} {k : I → S} (h : M.turn s = .wait k)
    {i : I} {is : List I} {o : O} :
    M.Observes (i :: is) s o ↔ M.out s = o ∨ M.Observes is (k i) o := by
  constructor
  · rintro ⟨n, hn⟩
    cases n with
    | zero => exact .inl hn
    | succ n => exact .inr ⟨n, by rw [← M.run_wait h]; exact hn⟩
  · rintro (now | ⟨n, hn⟩)
    · exact ⟨0, now⟩
    · exact ⟨n + 1, by rw [M.run_wait h]; exact hn⟩

theorem Machine.observes_wait_nil (M : Machine S I O) {s : S} {k : I → S}
    (h : M.turn s = .wait k) {o : O} : M.Observes [] s o ↔ M.out s = o := by
  simp only [Machine.Observes, M.run_wait_nil h, exists_const]

theorem Machine.observes_halt (M : Machine S I O) {s : S} (h : M.turn s = .halt) {is : List I}
    {o : O} : M.Observes is s o ↔ M.out s = o := by
  simp only [Machine.Observes, M.run_halt h, exists_const]

/-- From `s`, the inputs `is` lead to `t` and are used up. -/
inductive Machine.Leads (M : Machine S I O) : S → List I → S → Prop where
  | here (s : S) : M.Leads s [] s
  | step {s s' t : S} {is : List I} : M.turn s = .step s' → M.Leads s' is t → M.Leads s is t
  | wait {s t : S} {k : I → S} {i : I} {is : List I} : M.turn s = .wait k → M.Leads (k i) is t →
      M.Leads s (i :: is) t

theorem Machine.Leads.trans {M : Machine S I O} {s t r : S} {is js : List I}
    (h : M.Leads s is t) (h' : M.Leads t js r) : M.Leads s (is ++ js) r := by
  induction h with
  | here => exact h'
  | step turn _ ih => exact .step turn (ih h')
  | wait turn _ ih => exact .wait turn (ih h')

/-- What every turn keeps, of a state and the inputs used up to it, holds at the end. -/
theorem Machine.Leads.invariant {M : Machine S I O} (P : List I → S → Prop)
    (step : ∀ is s s', P is s → M.turn s = .step s' → P is s')
    (wait : ∀ is s k, P is s → M.turn s = .wait k → ∀ i, P (is ++ [i]) (k i)) {s t : S}
    {is : List I} (h : M.Leads s is t) : ∀ {js}, P js s → P (js ++ is) t := by
  induction h with
  | here s => exact fun start => by rwa [List.append_nil]
  | step turn _ ih => exact fun start => ih (step _ _ _ start turn)
  | @wait s t k i is turn _ ih =>
    intro js start
    rw [List.append_cons]
    exact ih (wait _ _ _ start turn i)

/-- The same for a property of states that inputs of some kind keep. -/
theorem Machine.Leads.keeps {M : Machine S I O} (P : S → Prop) (given : I → Prop)
    (step : ∀ s s', P s → M.turn s = .step s' → P s')
    (wait : ∀ s k, P s → M.turn s = .wait k → ∀ i, given i → P (k i)) {s t : S} {is : List I}
    (h : M.Leads s is t) (inputs : ∀ i ∈ is, given i) (start : P s) : P t := by
  induction h with
  | here => exact start
  | step turn _ ih => exact ih inputs (step _ _ start turn)
  | wait turn _ ih =>
    obtain ⟨first, later⟩ := List.forall_mem_cons.mp inputs
    exact ih later (wait _ _ start turn _ first)

theorem Machine.Leads.run {M : Machine S I O} {s t : S} {is : List I} (h : M.Leads s is t) :
    ∃ n, M.run n is s = t := by
  induction h with
  | here s => exact ⟨0, rfl⟩
  | step turn _ ih =>
    obtain ⟨n, hn⟩ := ih
    exact ⟨n + 1, by rw [M.run_step turn, hn]⟩
  | wait turn _ ih =>
    obtain ⟨n, hn⟩ := ih
    exact ⟨n + 1, by rw [M.run_wait turn, hn]⟩

/-- `rel n s t`: the abstract state `s` and the concrete state `t` agree, and `t` takes
at most `n` silent steps before it moves together with `s`. Inputs go in matching pairs. -/
structure Simulation (A : Machine S I O) (C : Machine T J O) (Matches : I → J → Prop) where
  rel : Nat → S → T → Prop
  same_out : ∀ {n s t}, rel n s t → A.out s = C.out t
  progress : ∀ {n s t}, rel n s t →
    (∃ m t', m < n ∧ C.turn t = .step t' ∧ rel m s t') ∨
    (∃ m s' t', A.turn s = .step s' ∧ C.turn t = .step t' ∧ rel m s' t') ∨
    (∃ k l, A.turn s = .wait k ∧ C.turn t = .wait l ∧
      ∀ i j, Matches i j → ∃ m, rel m (k i) (l j)) ∨
    (A.turn s = .halt ∧ C.turn t = .halt)

namespace Simulation

variable {A : Machine S I O} {C : Machine T J O} {Matches : I → J → Prop}

theorem abstract_run (sim : Simulation A C Matches) (m : Nat) {is : List I} {js : List J}
    (inputs : List.Forall₂ Matches is js) {n : Nat} {s : S} {t : T} (related : sim.rel n s t) :
    ∃ k n', sim.rel n' (A.run k is s) (C.run m js t) := by
  induction m generalizing is js n s t with
  | zero => exact ⟨0, n, related⟩
  | succ m ih =>
    rcases sim.progress related with ⟨_, t', _, ht, h⟩ | ⟨_, s', t', hs, ht, h⟩ |
      ⟨k, l, hs, ht, h⟩ | ⟨hs, ht⟩
    · rw [C.run_step ht]
      exact ih inputs h
    · obtain ⟨k, hk⟩ := ih inputs h
      exact ⟨k + 1, by rw [A.run_step hs, C.run_step ht]; exact hk⟩
    · cases inputs with
      | nil => exact ⟨0, n, by rw [C.run_wait_nil ht]; exact related⟩
      | @cons i j _ _ pair rest =>
        obtain ⟨_, h'⟩ := h i j pair
        obtain ⟨k, hk⟩ := ih rest h'
        exact ⟨k + 1, by rw [A.run_wait hs, C.run_wait ht]; exact hk⟩
    · exact ⟨0, n, by rw [C.run_halt ht]; exact related⟩

theorem concrete_run (sim : Simulation A C Matches) (k : Nat) {is : List I} {js : List J}
    (inputs : List.Forall₂ Matches is js) {n : Nat} {s : S} {t : T} (related : sim.rel n s t) :
    ∃ m n', sim.rel n' (A.run k is s) (C.run m js t) := by
  induction k generalizing is js n s t with
  | zero => exact ⟨0, n, related⟩
  | succ k ih =>
    -- The inner induction uses up the silent steps of the concrete side.
    induction n using Nat.strongRecOn generalizing t with
    | ind n silent =>
      rcases sim.progress related with ⟨m, t', hm, ht, h⟩ | ⟨_, s', t', hs, ht, h⟩ |
        ⟨a, l, hs, ht, h⟩ | ⟨hs, ht⟩
      · obtain ⟨i, hi⟩ := silent m hm h
        exact ⟨i + 1, by rw [C.run_step ht]; exact hi⟩
      · obtain ⟨i, hi⟩ := ih inputs h
        exact ⟨i + 1, by rw [C.run_step ht, A.run_step hs]; exact hi⟩
      · cases inputs with
        | nil => exact ⟨0, n, by rw [A.run_wait_nil hs]; exact related⟩
        | @cons i j _ _ pair rest =>
          obtain ⟨_, h'⟩ := h i j pair
          obtain ⟨m, hm⟩ := ih rest h'
          exact ⟨m + 1, by rw [C.run_wait ht, A.run_wait hs]; exact hm⟩
      · exact ⟨0, n, by rw [A.run_halt hs]; exact related⟩

/-- Related states show the same observations on matching inputs. -/
theorem observes_iff (sim : Simulation A C Matches) {is : List I} {js : List J}
    (inputs : List.Forall₂ Matches is js) {n : Nat} {s : S} {t : T} (related : sim.rel n s t)
    (o : O) : C.Observes js t o ↔ A.Observes is s o := by
  constructor
  · rintro ⟨m, rfl⟩
    obtain ⟨k, _, h⟩ := sim.abstract_run m inputs related
    exact ⟨k, sim.same_out h⟩
  · rintro ⟨k, rfl⟩
    obtain ⟨m, _, h⟩ := sim.concrete_run k inputs related
    exact ⟨m, (sim.same_out h).symm⟩

end Simulation

end Reactive
