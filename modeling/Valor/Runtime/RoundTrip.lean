import Valor.Runtime.Promise

/-! From the decimal number in the text of a `save` to the label and the values that are found
with what it has written. -/
namespace Valor

open Flow

variable {Var : Type} {Val : Var → Type} {View X R : Type}

/-- The value of an integer literal. -/
def literal (text : String) : Nat := Nat.ofDigitChars 10 text.toList 0

theorem literal_toString (n : Nat) : literal (toString n) = n := by
  rw [literal, Nat.toString_eq_repr, Nat.toList_repr]
  exact Nat.ofDigitChars_ten_toDigits

variable [DecidableEq Var]

/-- Whatever the promise held before, `p->save(n, xs)` makes `stage()` return `n` and, once `aw`
is occupied, `p->load(xs)` set the variables to what they were, and those only. -/
structure ReadsBack (X R : Type) (u : Ufser Val View) (n : Nat) (xs : List Var) : Prop where
  stage : ∀ (p : Promise X R) (l : Store Val),
    (p.save u (literal (toString n)) xs l).stage u = .ok n
  load : ∀ (p : Promise X R) (l l' : Store Val) (aw : AnyVec X R), aw.elems ≠ [] →
    Promise.load u { p.save u (literal (toString n)) xs l with aw := aw } xs l' =
      .ok (overlay xs l l')
  whole : ∀ (p p' : Promise X R) (l : Store Val),
    (p.save u (literal (toString n)) xs l).state = (p'.save u (literal (toString n)) xs l).state

omit [DecidableEq Var] in
theorem stage_save {u : Ufser Val View} (rt : u.RoundTrips) (p : Promise X R) (n : Nat)
    (xs : List Var) (l : Store Val) : (p.save u n xs l).stage u = .ok (n % 2 ^ 16) :=
  Promise.stage_saved rt (Nat.mod_lt n (by decide)) rfl

/-- What a `save` writes is read back exactly for the numbers of an `uint16_t`. -/
theorem reads_back_iff [∀ x, Inhabited (Val x)] {u : Ufser Val View} (rt : u.RoundTrips) (n : Nat)
    (xs : List Var) : ReadsBack X R u n xs ↔ n < 2 ^ 16 := by
  constructor
  · intro back
    have read := back.stage .initial fun _ => default
    rw [literal_toString, stage_save rt] at read
    have same : n % 2 ^ 16 = n := Except.ok.inj read
    exact same ▸ Nat.mod_lt n (by decide)
  · intro small
    have narrow : n % 2 ^ 16 = n := Nat.mod_eq_of_lt small
    refine ⟨fun p l => ?_, fun p l l' aw occupied => ?_, fun _ _ _ => rfl⟩
    · rw [literal_toString, stage_save rt, narrow]
    · rw [literal_toString]
      exact Promise.load_saved rt (Nat.mod_lt n (by decide)) rfl occupied l'

theorem reads_back_two :
    ReadsBack Unit Unit (wordUfser : Ufser (fun _ : Bool => UInt32) _) 2 [false, true] :=
  (reads_back_iff wordUfser_roundTrips 2 [false, true]).mpr (by decide)

/-- The 65536th `co_await` of a function is taken for its start. -/
theorem not_reads_back :
    ¬ ∀ n, ReadsBack Unit Unit (wordUfser : Ufser (fun _ : Bool => UInt32) _) n [] := by
  intro back
  have read := (back (2 ^ 16)).stage .initial fun _ => 0
  rw [literal_toString, stage_save wordUfser_roundTrips] at read
  exact absurd (Except.ok.inj read) (by decide)

end Valor
