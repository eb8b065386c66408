import Valor.Valet.Lines

/-! The line numbers of the tokens after rewriting, and when they are those of the source. -/
namespace Valor.Valet

open Edits

/-- A piece of the output. A directive in inserted text is obeyed, except in a group that is
left out. -/
inductive Piece where
  | gap (cs : List Char)
  | token (cs : List Char)
  | inserted (obeyed : Bool) (text : List Char)

namespace Piece

def chars : Piece → List Char
  | gap cs | token cs | inserted _ cs => cs

/-- The line behind a piece that starts on line `n`. -/
def after (n : Nat) : Piece → Nat
  | gap cs | token cs | inserted false cs => n + cs.count '\n'
  | inserted true text => numberAfter n none text

/-- The lines of the tokens. -/
def lines : Nat → List Piece → List Nat
  | _, [] => []
  | n, p :: ps =>
    match p with
    | token _ => n :: lines (p.after n) ps
    | _ => lines (p.after n) ps

end Piece

def textOfPieces (ps : List Piece) : List Char := ps.flatMap Piece.chars

variable (skipped : Token → Bool) (calls : List Call)

def Call.piece (c : Call) : Piece := .inserted (!skipped c.tok) c.text.toList

def callsAt (off : Nat) : List Call := calls.filter fun c => c.off = off

/-- The insertions between the text `before`, which ends with a token, and the next token. -/
def callsBefore (before : List Char) (l : Lexeme) : List Call :=
  callsAt calls before.length ++
    if l.gap = [] then [] else callsAt calls (before ++ l.gap).length

def piecesBefore (before : List Char) (l : Lexeme) : List Piece :=
  (callsAt calls before.length).map (Call.piece skipped) ++ .gap l.gap ::
    if l.gap = [] then [] else (callsAt calls (before ++ l.gap).length).map (Call.piece skipped)

/-- The text of a file with the insertions. -/
def piecesOf : List Char → List Lexeme → List Piece
  | before, [] => (callsAt calls before.length).map (Call.piece skipped)
  | before, l :: ls =>
    piecesBefore skipped calls before l ++ .token l.text :: piecesOf (before ++ l.chars) ls

/-- Nothing is inserted last behind a token that is left out, or broken over lines.
`sound` tells that the token before is neither. -/
def Kept : Bool → List Char → List Lexeme → Prop
  | _, _, [] => True
  | sound, before, l :: ls =>
    ((callsBefore calls before l).getLast?.any Call.behind = true → sound = true) ∧
      Kept (!skipped (l.token before) && '\n' ∉ l.text) (before ++ l.chars) ls

variable {skipped calls}

/-! ## Where calls are -/

theorem mem_tokensOf_split {front back : List Lexeme} {l : Lexeme} {tok : Token}
    (mem : tok ∈ tokensOf [] (front ++ l :: back)) :
    tok.offset + tok.length ≤ (textOf front).length ∨ tok = l.token (textOf front) ∨
      (textOf front ++ l.chars).length ≤ tok.offset := by
  rw [tokensOf_append] at mem
  rcases List.mem_append.mp mem with mem | mem
  · exact .inl (tokensOf_inside tok mem).2.2
  · rcases List.mem_cons.mp mem with rfl | mem
    · exact .inr (.inl rfl)
    · exact .inr (.inr (tokensOf_inside tok mem).1)

theorem token_length_pos {ls : List Lexeme} {tok : Token} (mem : tok ∈ tokensOf [] ls) :
    0 < tok.length := by
  have := (tokensOf_inside tok mem).2.1
  omega

section
variable {front back : List Lexeme} {l : Lexeme} {c : Call}
  (mem : c.tok ∈ tokensOf [] (front ++ l :: back))
include mem

/-- Nothing is inserted inside the text of a token, or in the space before it. -/
theorem off_outside : c.off ≤ (textOf front).length ∨ c.off = (textOf front ++ l.gap).length ∨
    (textOf front ++ l.chars).length ≤ c.off := by
  have pos := token_length_pos mem
  have ends := l.token_end (textOf front)
  have begins : (l.token (textOf front)).offset = (textOf front ++ l.gap).length := by
    simp [Lexeme.token]
  rcases mem_tokensOf_split mem with here | here | here <;> rw [Call.off] <;> split <;>
    first | omega | (rw [here]; omega)

theorem behind_last (behind : c.behind = true)
    (off : c.off = (textOf front ++ l.chars).length) : c.tok = l.token (textOf front) := by
  have pos := token_length_pos mem
  have grows : (textOf front).length < (textOf front ++ l.chars).length := by
    have := List.length_pos_iff.mpr l.ne
    simp only [Lexeme.chars, List.length_append]
    omega
  rw [Call.off, if_pos behind] at off
  rcases mem_tokensOf_split mem with here | here | here
  · omega
  · exact here
  · omega

theorem begin_next (before : c.behind = false) (off : c.off = (textOf front).length) :
    c.tok = l.token (textOf front) ∧ l.gap = [] := by
  have pos := token_length_pos mem
  have grows : (textOf front).length < (textOf front ++ l.chars).length := by
    have := List.length_pos_iff.mpr l.ne
    simp only [Lexeme.chars, List.length_append]
    omega
  rw [Call.off, if_neg (by simp [before])] at off
  rcases mem_tokensOf_split mem with here | here | here
  · omega
  · refine ⟨here, List.length_eq_zero_iff.mp ?_⟩
    rw [here] at off
    simp only [Lexeme.token] at off
    omega
  · omega

theorem begin_gap (space : l.gap ≠ []) (off : c.off = (textOf front ++ l.gap).length) :
    c.behind = false ∧ c.tok = l.token (textOf front) := by
  have pos := token_length_pos mem
  have gap := List.length_pos_iff.mpr space
  have text := List.length_pos_iff.mpr l.ne
  have ends := l.token_end (textOf front)
  simp only [Lexeme.chars, List.length_append] at ends off
  rw [Call.off] at off
  have away : (l.token (textOf front)).offset = (textOf front).length + l.gap.length := rfl
  rcases mem_tokensOf_split mem with here | here | here
  · split at off <;> omega
  · refine ⟨?_, here⟩
    by_contra behind
    rw [if_pos (Bool.eq_true_of_not_eq_false behind), here] at off
    omega
  · simp only [Lexeme.chars, List.length_append] at here
    split at off <;> omega

end

/-! ## The text -/

def insertionsOf (calls : List Call) : List (Nat × List Char) :=
  calls.map fun c => (c.off, c.text.toList)

theorem textOfPieces_append (ps qs : List Piece) :
    textOfPieces (ps ++ qs) = textOfPieces ps ++ textOfPieces qs := List.flatMap_append

theorem callsAt_text (skipped : Token → Bool) (calls : List Call) (off : Nat) :
    textOfPieces ((callsAt calls off).map (Call.piece skipped)) =
      insertions (insertionsOf calls) off := by
  simp [textOfPieces, callsAt, insertionsOf, insertions, List.filter_map, List.flatMap_map,
    Call.piece, Piece.chars, Function.comp_def]

theorem insertions_inside {front back : List Lexeme} {l : Lexeme}
    (mem : ∀ c ∈ calls, c.tok ∈ tokensOf [] (front ++ l :: back)) (off : Nat)
    (above : (textOf front).length < off) (gap : off ≠ (textOf front ++ l.gap).length)
    (below : off < (textOf front ++ l.chars).length) : insertions (insertionsOf calls) off = [] := by
  apply insertions_none
  intro e here
  obtain ⟨c, listed, rfl⟩ := List.mem_map.mp here
  have := off_outside (mem c listed)
  simp only
  omega

theorem piecesOf_text (skipped : Token → Bool) {front ls : List Lexeme}
    (mem : ∀ c ∈ calls, c.tok ∈ tokensOf [] (front ++ ls)) :
    textOfPieces (piecesOf skipped calls (textOf front) ls) =
      weave (fun i => insertions (insertionsOf calls) ((textOf front).length + i)) (textOf ls) := by
  induction ls generalizing front with
  | nil => exact callsAt_text skipped calls _
  | cons l ls ih =>
    have rest := @ih (front ++ [l]) (by simpa using mem)
    have inside := insertions_inside mem
    simp only [Lexeme.chars, List.length_append] at inside
    have later : (fun i => insertions (insertionsOf calls)
        ((textOf front).length + l.gap.length + (l.text.length + i))) =
        fun i => insertions (insertionsOf calls) ((textOf (front ++ [l])).length + i) := by
      funext i
      simp [Lexeme.chars, Nat.add_assoc]
    have text := weave_segment (textOf ls)
      (fun i => insertions (insertionsOf calls) ((textOf front).length + l.gap.length + i)) l.ne
      fun i above below => inside _ (by omega) (by omega) (by omega)
    have next : textOf front ++ l.chars = textOf (front ++ [l]) := by simp
    rw [piecesOf, textOfPieces_append, next, textOf_cons, Lexeme.chars, List.append_assoc]
    have token : textOfPieces (.token l.text :: piecesOf skipped calls (textOf (front ++ [l])) ls) =
        l.text ++ weave (fun i => insertions (insertionsOf calls)
          ((textOf front).length + l.gap.length + (l.text.length + i))) (textOf ls) := by
      rw [later, ← rest]
      rfl
    rw [token]
    by_cases space : l.gap = []
    · simp only [space, List.length_nil, Nat.add_zero] at text ⊢
      rw [List.nil_append, text, piecesBefore, if_pos space, textOfPieces_append, callsAt_text, space,
        show textOfPieces [Piece.gap []] = [] from rfl, List.append_nil]
    · have gap := weave_segment (l.text ++ textOf ls)
        (fun i => insertions (insertionsOf calls) ((textOf front).length + i)) space
        fun i above below => inside _ (by omega) (by omega) (by omega)
      simp only [← Nat.add_assoc] at gap text ⊢
      rw [gap, text, piecesBefore, if_neg space, textOfPieces_append, callsAt_text]
      have split : textOfPieces (.gap l.gap :: (callsAt calls (textOf front ++ l.gap).length).map
          (Call.piece skipped)) = l.gap ++ insertions (insertionsOf calls)
            (textOf front ++ l.gap).length := by
        rw [← callsAt_text skipped]
        rfl
      rw [split]
      simp

/-! ## The lines -/

variable (skipped) in
/-- The line behind some insertions that start on line `n`. -/
def numberBehind (n : Nat) (cs : List Call) : Nat := (cs.map (Call.piece skipped)).foldl Piece.after n

theorem numberBehind_concat (n : Nat) (cs : List Call) (c : Call) :
    numberBehind skipped n (cs ++ [c]) = (c.piece skipped).after (numberBehind skipped n cs) := by
  simp [numberBehind]

theorem piece_after (skipped : Token → Bool) {c : Call} (sets : Sets c.text.toList c.tok.line) (n : Nat) :
    (skipped c.tok = false → (c.piece skipped).after n = c.tok.line) ∧
    (skipped c.tok = true → n < (c.piece skipped).after n) := by
  constructor
  · intro live
    rw [Call.piece, live]
    exact sets.1 n none
  · intro dead
    rw [Call.piece, dead]
    exact Nat.lt_add_of_pos_right (List.count_pos_iff.mpr sets.2)

/-- Insertions at or right behind the end of a token: that token is left out or not, and its
text ends on line `n`, `broken` lines below its start. -/
structure Behind (skipped : Token → Bool) (n : Nat) (dead : Bool) (broken : Nat) (c : Call) :
    Prop where
  sets : Sets c.text.toList c.tok.line
  begins : c.behind = false → skipped c.tok = false ∧ c.tok.line = n
  ends : c.behind = true → skipped c.tok = dead ∧ c.tok.line + broken = n

section
variable {n broken : Nat} {dead : Bool} {cs : List Call}

theorem numberBehind_ge (h : ∀ c ∈ cs, Behind skipped n true broken c) :
    n ≤ numberBehind skipped n cs := by
  induction cs using List.reverseRecOn with
  | nil => exact Nat.le_refl _
  | append_singleton cs c ih =>
    have before := ih fun c mem => h c (List.mem_append_left _ mem)
    have here := h c (by simp)
    obtain ⟨live, left⟩ := piece_after skipped here.sets (numberBehind skipped n cs)
    rw [numberBehind_concat]
    cases behind : c.behind with
    | false =>
      obtain ⟨compiled, line⟩ := here.begins behind
      rw [live compiled, line]
    | true =>
      have := left (here.ends behind).1
      omega

theorem numberBehind_iff (h : ∀ c ∈ cs, Behind skipped n dead broken c) :
    numberBehind skipped n cs = n ↔
      (cs.getLast?.any Call.behind = true → (!dead && broken = 0) = true) := by
  rcases List.eq_nil_or_concat cs with rfl | ⟨cs, c, rfl⟩
  · simp [numberBehind]
  · rw [List.concat_eq_append] at h ⊢
    have here := h c (by simp)
    obtain ⟨live, left⟩ := piece_after skipped here.sets (numberBehind skipped n cs)
    rw [numberBehind_concat, List.getLast?_concat, Option.any_some]
    cases behind : c.behind with
    | false =>
      obtain ⟨compiled, line⟩ := here.begins behind
      simp [live compiled, line]
    | true =>
      obtain ⟨same, line⟩ := here.ends behind
      cases dead with
      | false =>
        rw [live same]
        simp only [Bool.not_false, Bool.true_and, decide_eq_true_eq, true_implies]
        omega
      | true =>
        have before := numberBehind_ge fun c mem => h c (List.mem_append_left _ mem)
        have := left same
        simp only [Bool.not_true, Bool.false_and, Bool.false_eq_true, imp_false, not_true_eq_false,
          iff_false]
        omega

theorem numberBehind_begins (some' : cs ≠ []) (n : Nat) {m : Nat}
    (h : ∀ c ∈ cs, Sets c.text.toList c.tok.line ∧ skipped c.tok = false ∧ c.tok.line = m) :
    numberBehind skipped n cs = m := by
  obtain ⟨cs, c, rfl⟩ := (List.eq_nil_or_concat cs).resolve_left some'
  rw [List.concat_eq_append] at h ⊢
  obtain ⟨sets, compiled, line⟩ := h c (by simp)
  rw [numberBehind_concat, (piece_after skipped sets _).1 compiled, line]

end

theorem lines_calls (skipped : Token → Bool) (n : Nat) (cs : List Call) (ps : List Piece) :
    Piece.lines n (cs.map (Call.piece skipped) ++ ps) =
      Piece.lines (numberBehind skipped n cs) ps := by
  induction cs generalizing n with
  | nil => rfl
  | cons c cs ih => exact ih _

/-- The line on which the text behind `before` starts. -/
def lineBehind (before : List Char) : Nat := 1 + before.count '\n'

section
variable {front ls : List Lexeme} {l : Lexeme} {dead : Bool} {broken : Nat}

theorem piecesBefore_lines (mem : ∀ c ∈ calls, c.tok ∈ tokensOf [] (front ++ l :: ls))
    (sets : ∀ c ∈ calls, Sets c.text.toList c.tok.line)
    (compiled : ∀ c ∈ calls, c.behind = false → skipped c.tok = false)
    (last : ∀ c ∈ calls, c.behind = true → c.off = (textOf front).length →
      skipped c.tok = dead ∧ c.tok.line + broken = lineBehind (textOf front)) :
    ∃ m, (∀ ps, Piece.lines (lineBehind (textOf front))
        (piecesBefore skipped calls (textOf front) l ++ ps) = Piece.lines m ps) ∧
      (m = (l.token (textOf front)).line ↔
        ((callsBefore calls (textOf front) l).getLast?.any Call.behind = true →
          (!dead && broken = 0) = true)) := by
  have line : (l.token (textOf front)).line = lineBehind (textOf front) + l.gap.count '\n' := by
    simp only [Lexeme.token, lineBehind, List.count_append]
    omega
  have first : ∀ c ∈ callsAt calls (textOf front).length,
      Behind skipped (lineBehind (textOf front)) dead broken c := by
    intro c here
    obtain ⟨here, off⟩ := List.mem_filter.mp here
    have off : c.off = (textOf front).length := by simpa using off
    refine ⟨sets c here, fun before => ⟨compiled c here before, ?_⟩, fun behind => last c here behind off⟩
    obtain ⟨same, tight⟩ := begin_next (mem c here) before off
    rw [same, line, tight]
    rfl
  have kept := numberBehind_iff first
  by_cases space : l.gap = []
  · refine ⟨numberBehind skipped (lineBehind (textOf front)) (callsAt calls (textOf front).length),
      fun ps => ?_, ?_⟩
    · rw [piecesBefore, if_pos space, List.append_assoc, lines_calls, space]
      rfl
    · rw [line, callsBefore, if_pos space, space, List.append_nil]
      exact kept
  · have second : ∀ c ∈ callsAt calls (textOf front ++ l.gap).length,
        c.behind = false ∧ Sets c.text.toList c.tok.line ∧ skipped c.tok = false ∧
          c.tok.line = (l.token (textOf front)).line := by
      intro c here
      obtain ⟨here, off⟩ := List.mem_filter.mp here
      obtain ⟨before, same⟩ := begin_gap (mem c here) space (by simpa using off)
      exact ⟨before, sets c here, compiled c here before, by rw [same]⟩
    refine ⟨numberBehind skipped (numberBehind skipped (lineBehind (textOf front))
      (callsAt calls (textOf front).length) + l.gap.count '\n')
      (callsAt calls (textOf front ++ l.gap).length), fun ps => ?_, ?_⟩
    · rw [piecesBefore, if_neg space, List.append_assoc, lines_calls, List.cons_append]
      exact lines_calls skipped _ _ ps
    · rw [callsBefore, if_neg space]
      by_cases none : callsAt calls (textOf front ++ l.gap).length = []
      · rw [none, List.append_nil, line]
        exact Nat.add_right_cancel_iff.trans kept
      · rw [numberBehind_begins none _ fun c here => (second c here).2,
          List.getLast?_append_of_ne_nil _ none, List.getLast?_eq_some_getLast none, Option.any_some,
          (second _ (List.getLast_mem none)).1]
        simp

theorem piecesOf_lines (dead : Bool) (broken : Nat)
    (mem : ∀ c ∈ calls, c.tok ∈ tokensOf [] (front ++ ls))
    (sets : ∀ c ∈ calls, Sets c.text.toList c.tok.line)
    (compiled : ∀ c ∈ calls, c.behind = false → skipped c.tok = false)
    (last : ∀ c ∈ calls, c.behind = true → c.off = (textOf front).length →
      skipped c.tok = dead ∧ c.tok.line + broken = lineBehind (textOf front)) :
    Piece.lines (lineBehind (textOf front)) (piecesOf skipped calls (textOf front) ls) =
        (tokensOf (textOf front) ls).map Token.line ↔
      Kept skipped calls (!dead && broken = 0) (textOf front) ls := by
  induction ls generalizing front dead broken with
  | nil =>
    have none := lines_calls skipped (lineBehind (textOf front))
      (callsAt calls (textOf front).length) []
    rw [List.append_nil] at none
    simp [piecesOf, none, Piece.lines, tokensOf, Kept]
  | cons l ls ih =>
    obtain ⟨m, lines, kept⟩ := piecesBefore_lines mem sets compiled last
    have next : textOf front ++ l.chars = textOf (front ++ [l]) := by simp
    have behind : (l.token (textOf front)).line + l.text.count '\n' =
        lineBehind (textOf (front ++ [l])) := by
      rw [← next]
      simp only [Lexeme.token, lineBehind, Lexeme.chars, List.count_append]
      omega
    have rest := @ih (front ++ [l]) (skipped (l.token (textOf front))) (l.text.count '\n')
      (by simpa using mem) fun c here ends off => by
        rw [behind_last (mem c here) ends (by rw [next, off])]
        exact ⟨rfl, behind⟩
    have sound : (!skipped (l.token (textOf front)) && decide (l.text.count '\n' = 0)) =
        (!skipped (l.token (textOf front)) && decide ('\n' ∉ l.text)) := by
      simp [List.count_eq_zero]
    rw [sound] at rest
    rw [piecesOf, lines, tokensOf, List.map_cons, Kept, next, ← kept, ← rest]
    simp only [Piece.lines, Piece.after, List.cons.injEq]
    constructor
    · rintro ⟨rfl, same⟩
      exact ⟨rfl, by rwa [behind] at same⟩
    · rintro ⟨rfl, same⟩
      exact ⟨rfl, by rwa [behind]⟩

end

/-! ## A file -/

/-- Nothing happens where nothing is left out, and no token is broken. -/
theorem kept_of_whole {skipped : Token → Bool} {ls : List Lexeme} (calls : List Call)
    (compiled : ∀ tok, skipped tok = false) (whole : ∀ l ∈ ls, '\n' ∉ l.text) (before : List Char) :
    Kept skipped calls true before ls := by
  induction ls generalizing before with
  | nil => trivial
  | cons l ls ih =>
    obtain ⟨here, rest⟩ := List.forall_mem_cons.mp whole
    refine ⟨fun _ => rfl, ?_⟩
    simp only [compiled, here, not_false_eq_true, decide_true, Bool.not_false, Bool.and_self]
    exact ih rest _

theorem coawait_ne : "co_await".toList ≠ [] := by decide

theorem semi_ne : [';'] ≠ [] := by decide

def oneAwait : SourceFunction :=
  ⟨⟨[], .coawait .nil .nil⟩, true, false, "ser_ctx<>", 1, ⟨0, 1, false, 1⟩,
    fun _ => ⟨2, 8, false, 1⟩, fun _ => ⟨11, 1, false, 1⟩⟩

def oneAwaitValet : Valet := ⟨false, [(0, [⟨⟨1, [0], false⟩, [0], []⟩])], [], fun _ => none⟩

/-- `{ co_await x;` and `}` on the next line. -/
def plainLexemes : List Lexeme :=
  [⟨[], ['\x7b'], false, by decide⟩, ⟨[' '], "co_await".toList, false, coawait_ne⟩,
    ⟨[' '], ['x'], false, by decide⟩, ⟨[], [';'], true, semi_ne⟩, ⟨['\n'], ['\x7d'], false, by decide⟩]

def plainFile : TextFile where
  lexemes fid := if fid = 1 then plainLexemes else []
  contents fid := textOf (if fid = 1 then plainLexemes else [])
  tokens fid := tokensOf [] (if fid = 1 then plainLexemes else [])
  skipped _ _ := false
  functions := [oneAwait]
  inside fid tok mem := (tokensOf_inside tok mem).2.2
  brace f mem _ := by
    cases List.mem_singleton.mp mem
    decide
  begins f mem aw _ := by
    cases List.mem_singleton.mp mem
    change (⟨2, 8, false, 1⟩ : Token) ∈ tokensOf [] plainLexemes
    decide
  semi f mem aw _ := by
    cases List.mem_singleton.mp mem
    change (semiAfter (tokensOf [] plainLexemes) 11).isSome = true
    decide
  written _ := rfl
  lexed _ := rfl
  compiled _ _ _ _ := rfl

theorem plain_known : Known plainFile.toSourceFile oneAwaitValet.skip oneAwaitValet.stages := by
  intro entry mem
  cases List.mem_singleton.mp mem
  exact ⟨_, rfl, by decide⟩

/-- `{ co_await x`, a group left out with a `;` in it, and `; }`. -/
def leftOutLexemes : List Lexeme :=
  [⟨[], ['\x7b'], false, by decide⟩, ⟨[' '], "co_await".toList, false, coawait_ne⟩,
    ⟨[' '], ['x'], false, by decide⟩, ⟨['\n'], ['#'], false, by decide⟩,
    ⟨[], ['i', 'f'], false, by decide⟩, ⟨[' '], ['0'], false, by decide⟩,
    ⟨['\n'], [';'], true, semi_ne⟩, ⟨['\n'], ['#'], false, by decide⟩,
    ⟨[], "endif".toList, false, by decide⟩, ⟨['\n'], [';'], true, semi_ne⟩,
    ⟨[' '], ['\x7d'], false, by decide⟩]

def leftOutFile : TextFile where
  lexemes fid := if fid = 1 then leftOutLexemes else []
  contents fid := textOf (if fid = 1 then leftOutLexemes else [])
  tokens fid := tokensOf [] (if fid = 1 then leftOutLexemes else [])
  skipped _ tok := tok = ⟨19, 1, true, 3⟩
  functions := [oneAwait]
  inside fid tok mem := (tokensOf_inside tok mem).2.2
  brace f mem _ := by
    cases List.mem_singleton.mp mem
    decide
  begins f mem aw _ := by
    cases List.mem_singleton.mp mem
    change (⟨2, 8, false, 1⟩ : Token) ∈ tokensOf [] leftOutLexemes
    decide
  semi f mem aw _ := by
    cases List.mem_singleton.mp mem
    change (semiAfter (tokensOf [] leftOutLexemes) 11).isSome = true
    decide
  written _ := rfl
  lexed _ := rfl
  compiled f mem aw _ := by
    cases List.mem_singleton.mp mem
    rfl

theorem leftOut_known : Known leftOutFile.toSourceFile oneAwaitValet.skip oneAwaitValet.stages := by
  intro entry mem
  cases List.mem_singleton.mp mem
  exact ⟨_, rfl, by decide⟩

end Valor.Valet
