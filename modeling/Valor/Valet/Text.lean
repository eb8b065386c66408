import Valor.Valet.Files

/-! Files as they are written: tokens with white space and comments between them. -/
namespace Valor.Valet

open Edits

/-- A token, with what stands between it and the token before it. -/
structure Lexeme where
  gap : List Char
  text : List Char
  semi : Bool
  ne : text ≠ []
  deriving DecidableEq

namespace Lexeme

def chars (l : Lexeme) : List Char := l.gap ++ l.text

/-- What the lexer makes of it behind the text `before`. -/
def token (l : Lexeme) (before : List Char) : Token :=
  ⟨before.length + l.gap.length, l.text.length, l.semi, 1 + (before ++ l.gap).count '\n'⟩

theorem token_end (l : Lexeme) (before : List Char) :
    (l.token before).offset + (l.token before).length = (before ++ l.chars).length := by
  simp only [token, chars, List.length_append]
  omega

theorem token_pos (l : Lexeme) (before : List Char) : 0 < (l.token before).length :=
  List.length_pos_iff.mpr l.ne

end Lexeme

def textOf (ls : List Lexeme) : List Char := ls.flatMap Lexeme.chars

def tokensOf : List Char → List Lexeme → List Token
  | _, [] => []
  | before, l :: ls => l.token before :: tokensOf (before ++ l.chars) ls

@[simp] theorem textOf_nil : textOf [] = [] := rfl

@[simp] theorem textOf_cons (l : Lexeme) (ls : List Lexeme) :
    textOf (l :: ls) = l.chars ++ textOf ls := List.flatMap_cons

@[simp] theorem textOf_append (ls ls' : List Lexeme) : textOf (ls ++ ls') = textOf ls ++ textOf ls' :=
  List.flatMap_append

theorem tokensOf_append (before : List Char) (ls ls' : List Lexeme) :
    tokensOf before (ls ++ ls') = tokensOf before ls ++ tokensOf (before ++ textOf ls) ls' := by
  induction ls generalizing before with
  | nil => simp [tokensOf]
  | cons l ls ih => simp [tokensOf, ih]

theorem token_mem (before : List Char) (front back : List Lexeme) (l : Lexeme) :
    l.token (before ++ textOf front) ∈ tokensOf before (front ++ l :: back) := by
  rw [tokensOf_append]
  exact List.mem_append_right _ List.mem_cons_self

theorem tokensOf_inside {before : List Char} {ls : List Lexeme} : ∀ tok ∈ tokensOf before ls,
    before.length ≤ tok.offset ∧ tok.offset < tok.offset + tok.length ∧
      tok.offset + tok.length ≤ (before ++ textOf ls).length := by
  induction ls generalizing before with
  | nil => simp [tokensOf]
  | cons l ls ih =>
    intro tok mem
    rcases List.mem_cons.mp mem with rfl | mem
    · have end' := l.token_end before
      have pos := l.token_pos before
      refine ⟨Nat.le_add_right _ _, by omega, ?_⟩
      rw [end']
      simp only [List.length_append, textOf_cons]
      omega
    · have := ih tok mem
      simp only [List.length_append, textOf_cons] at this ⊢
      omega

theorem semiAfter_skip {tokens : List Token} {loc : Nat} (le : ∀ tok ∈ tokens, tok.offset ≤ loc)
    (rest : List Token) : semiAfter (tokens ++ rest) loc = semiAfter rest loc := by
  induction tokens with
  | nil => rfl
  | cons tok tokens ih =>
    rw [List.cons_append, semiAfter, if_pos (le tok List.mem_cons_self),
      ih fun tok mem => le tok (List.mem_cons_of_mem _ mem)]

theorem semiAfter_next (front back : List Lexeme) (last : Lexeme) {semi : Lexeme}
    (isSemi : semi.semi = true) :
    semiAfter (tokensOf [] (front ++ last :: semi :: back)) (last.token (textOf front)).offset =
      some (semi.token (textOf front ++ last.chars)) := by
  have before : ∀ tok ∈ tokensOf [] front, tok.offset ≤ (last.token (textOf front)).offset := by
    intro tok mem
    have := tokensOf_inside tok mem
    simp only [Lexeme.token, List.nil_append] at this ⊢
    omega
  have later : ¬ (semi.token (textOf front ++ last.chars)).offset ≤
      (last.token (textOf front)).offset := by
    have end' := last.token_end (textOf front)
    have pos := last.token_pos (textOf front)
    simp only [Lexeme.token] at end' pos ⊢
    omega
  rw [tokensOf_append, semiAfter_skip before, List.nil_append, tokensOf, semiAfter,
    if_pos (Nat.le_refl _), tokensOf, semiAfter, if_neg later]
  exact if_pos isSemi

/-! ## One file -/

/-- The edits of a file go into its buffer one after the other. -/
theorem insertText_buffer {contents : Nat → List Char} {buffers buffers' : Buffers}
    {edits : List Edit} (fid : Nat)
    (run : edits.foldlM (insertText contents) buffers = some buffers') :
    (bufferAt contents buffers fid).insertAll
        ((edits.filter fun e => e.file = fid).map fun e => (e.off, e.text.toList)) =
      some (bufferAt contents buffers' fid) := by
  induction edits generalizing buffers with
  | nil =>
    cases run
    rfl
  | cons e edits ih =>
    obtain ⟨middle, step, rest⟩ := Option.bind_eq_some_iff.mp run
    obtain ⟨b, here, rfl⟩ := Option.map_eq_some_iff.mp step
    have later := ih rest
    by_cases same : e.file = fid
    · subst same
      rw [bufferAt, Function.update_self, Option.getD_some] at later
      rw [List.filter_cons_of_pos (by simp)]
      exact Option.bind_eq_some_iff.mpr ⟨b, here, later⟩
    · rw [bufferAt, Function.update_of_ne (Ne.symm same)] at later
      rw [List.filter_cons_of_neg (by simpa using same)]
      exact later

end Valor.Valet
