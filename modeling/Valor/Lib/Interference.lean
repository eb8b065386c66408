import Valor.Lib.Reactive

/-! Machines that can be interfered with while they wait for an input. A simulation survives
it when its relation does. -/
namespace Reactive

variable {S T I J O P : Type*}

/-- Each input comes with what is done to the waiting state before it. -/
def Machine.poked (M : Machine S I O) (poke : S → P → S) : Machine S (List P × I) O where
  turn s :=
    match M.turn s with
    | .step s' => .step s'
    | .wait _ => .wait fun i =>
      match M.turn (i.1.foldl poke s) with
      | .wait k => k i.2
      | _ => i.1.foldl poke s
    | .halt => .halt
  out := M.out

namespace Machine

variable {M : Machine S I O} {poke : S → P → S} {s s' : S} {k : I → S}

theorem poked_step (h : M.turn s = .step s') : (M.poked poke).turn s = .step s' := by
  simp only [poked, h]

theorem poked_halt (h : M.turn s = .halt) : (M.poked poke).turn s = .halt := by
  simp only [poked, h]

theorem poked_wait (poke : S → P → S) (h : M.turn s = .wait k) :
    ∃ l, (M.poked poke).turn s = .wait l ∧ ∀ (ps : List P) (i : I) (k' : I → S),
      M.turn (ps.foldl poke s) = .wait k' →
      l (ps, i) = k' i := by
  refine ⟨_, by simp only [poked, h]; rfl, ?_⟩
  intro ps i k' waits
  simp only [waits]

end Machine

namespace Simulation

variable {A : Machine S I O} {C : Machine T J O} {Matches : I → J → Prop}

/-- The concrete side may be interfered with if that changes nothing the relation speaks of. -/
def poked (sim : Simulation A C Matches) (poke : T → P → T)
    (keeps : ∀ {n s t k} (p : P), sim.rel n s t → C.turn t = .wait k →
      sim.rel n s (poke t p) ∧ ∃ k', C.turn (poke t p) = .wait k') :
    Simulation A (C.poked poke) fun i j => Matches i j.2 where
  rel := sim.rel
  same_out := sim.same_out
  progress := by
    intro n s t related
    rcases sim.progress related with ⟨m, t', less, ht, h⟩ | ⟨m, s', t', hs, ht, h⟩ |
      ⟨k, l, hs, ht, _⟩ | ⟨hs, ht⟩
    · exact .inl ⟨m, t', less, Machine.poked_step ht, h⟩
    · exact .inr (.inl ⟨m, s', t', hs, Machine.poked_step ht, h⟩)
    · obtain ⟨l', turn, answers⟩ := Machine.poked_wait poke ht
      refine .inr (.inr (.inl ⟨k, l', hs, turn, ?_⟩))
      rintro i ⟨ps, j⟩ pair
      have later : ∀ (ps : List P) t l, sim.rel n s t → C.turn t = .wait l →
          sim.rel n s (ps.foldl poke t) ∧ ∃ l, C.turn (ps.foldl poke t) = .wait l := by
        intro ps
        induction ps with
        | nil => exact fun t l h waits => ⟨h, l, waits⟩
        | cons p ps ih =>
          intro t l h waits
          obtain ⟨h', l', waits'⟩ := keeps p h waits
          exact ih _ l' h' waits'
      obtain ⟨related', l'', waits⟩ := later ps t l related ht
      rw [answers ps j l'' waits]
      rcases sim.progress related' with ⟨_, _, _, ht', _⟩ | ⟨_, _, _, _, ht', _⟩ |
        ⟨k', _, hs', ht', goes_on⟩ | ⟨_, ht'⟩
      · cases waits.symm.trans ht'
      · cases waits.symm.trans ht'
      · cases waits.symm.trans ht'
        cases hs.symm.trans hs'
        exact goes_on i j pair
      · cases waits.symm.trans ht'
    · exact .inr (.inr (.inr ⟨hs, Machine.poked_halt ht⟩))

end Simulation

end Reactive
