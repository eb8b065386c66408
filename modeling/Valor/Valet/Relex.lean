import Valor.Valet.Text

/-! The search for the semicolon behind an await as it is written: a recursion that starts a
raw lexer of its own at the end of each token. Other modules use the search of
`Valet.semiAfter` through a list of tokens. -/
namespace Valor.Valet

/-- A file as the raw lexer finds it, without its white space and comments. -/
structure RawText where
  tokens : List Token
  size : Nat
  apart : tokens.Pairwise fun s t => s.offset + s.length ≤ t.offset
  nonempty : ∀ t ∈ tokens, 0 < t.length
  inside : ∀ t ∈ tokens, t.offset + t.length ≤ size

inductive TokenKind where
  | semi | eof | other
  deriving DecidableEq

structure RawToken where
  kind : TokenKind
  location : Nat
  length : Nat

/-- `invalid` is a default constructed location. -/
inductive SourceLocation where
  | at' (offset : Nat)
  | invalid
  deriving DecidableEq

theorem tokensOf_apart (before : List Char) (ls : List Lexeme) :
    (tokensOf before ls).Pairwise fun s t => s.offset + s.length ≤ t.offset := by
  induction ls generalizing before with
  | nil => exact .nil
  | cons l ls ih =>
    apply List.Pairwise.cons
    · intro t mem
      have behind := (tokensOf_inside t mem).1
      have end' := l.token_end before
      omega
    · exact ih _

namespace RawText

/-- The text of some lexemes, with what stands behind the last. -/
def ofLexemes (ls : List Lexeme) (tail : List Char) : RawText where
  tokens := tokensOf [] ls
  size := (textOf ls ++ tail).length
  apart := tokensOf_apart [] ls
  nonempty := by
    intro t mem
    have := tokensOf_inside t mem
    omega
  inside := by
    intro t mem
    have := tokensOf_inside t mem
    simp only [List.nil_append, List.length_append] at this ⊢
    omega

variable (file : RawText)

/-- A raw lexer that begins in front of a token, in its white space, or at the end. -/
def lexFromRawLexer (begin : Nat) : RawToken :=
  match file.tokens.find? fun t => begin ≤ t.offset with
  | some t => ⟨if t.semi then .semi else .other, t.offset, t.length⟩
  | none => ⟨.eof, file.size, 0⟩

def measureTokenLength (loc : Nat) : Nat :=
  match file.tokens.find? fun t => t.offset = loc with
  | some t => t.length
  | none => 0

def getLocForEndOfToken (loc : Nat) : Nat := loc + file.measureTokenLength loc

/-- `none` is a recursion that is deeper than `fuel`. -/
def semiAfter : Nat → Nat → Option SourceLocation
  | 0, _ => none
  | fuel + 1, loc =>
    let tok := file.lexFromRawLexer (file.getLocForEndOfToken loc)
    if tok.kind ≠ .semi then semiAfter fuel tok.location else some (.at' tok.location)

/-- The semicolon at `off` is the first one behind `loc`. -/
def FirstSemi (loc off : Nat) : Prop :=
  (∃ t ∈ file.tokens, t.semi = true ∧ t.offset = off) ∧ loc < off ∧
    ∀ t ∈ file.tokens, t.semi = true → loc < t.offset → off ≤ t.offset

def SemiBehind (loc : Nat) : Prop := ∃ t ∈ file.tokens, t.semi = true ∧ loc < t.offset

/-- The recursion ends, with the first semicolon or the report that there is none. -/
def Settles (loc : Nat) : Prop :=
  ∃ fuel found, file.semiAfter fuel loc = some found ∧
    match found with
    | .at' off => file.FirstSemi loc off
    | .invalid => ¬ file.SemiBehind loc

variable {file} {loc : Nat} {t : Token} {front rest : List Token}

theorem apart_or {tokens : List Token}
    (apart : tokens.Pairwise fun s t => s.offset + s.length ≤ t.offset) {s t : Token}
    (hs : s ∈ tokens) (ht : t ∈ tokens) :
    s = t ∨ s.offset + s.length ≤ t.offset ∨ t.offset + t.length ≤ s.offset := by
  induction tokens with
  | nil => cases hs
  | cons first tokens ih =>
    obtain ⟨behind, apart⟩ := List.pairwise_cons.mp apart
    rcases List.mem_cons.mp hs with rfl | hs'
    · rcases List.mem_cons.mp ht with rfl | ht'
      · exact .inl rfl
      · exact .inr (.inl (behind t ht'))
    · rcases List.mem_cons.mp ht with rfl | ht'
      · exact .inr (.inr (behind s hs'))
      · exact ih apart hs' ht'

/-- No token begins between `loc` and where the lexer is started. -/
theorem end_le_iff (ht : t ∈ file.tokens) :
    file.getLocForEndOfToken loc ≤ t.offset ↔ loc < t.offset := by
  unfold getLocForEndOfToken measureTokenLength
  cases search : file.tokens.find? fun t => t.offset = loc with
  | none =>
    have other := List.find?_eq_none.mp search t ht
    simp only [decide_eq_true_eq] at other
    simp only [Nat.add_zero]
    omega
  | some s =>
    have hs := List.mem_of_find?_eq_some search
    have here : s.offset = loc := by simpa using List.find?_some search
    have long := file.nonempty s hs
    have long' := file.nonempty t ht
    simp only
    rcases apart_or file.apart hs ht with rfl | before | behind <;> omega

theorem find_congr {l : List Token} {p q : Token → Bool} (same : ∀ t ∈ l, p t = q t) :
    l.find? p = l.find? q := by
  rw [← List.head?_filter, ← List.head?_filter, List.filter_congr same]

/-- The lexer finds the first token that begins behind `loc`. -/
theorem lex_end (loc : Nat) : file.tokens.find? (fun t => file.getLocForEndOfToken loc ≤ t.offset) =
    file.tokens.find? fun t => loc < t.offset := by
  apply find_congr
  intro t ht
  exact decide_eq_decide.mpr (end_le_iff ht)

theorem semiAfter_succ (fuel loc : Nat) : file.semiAfter (fuel + 1) loc =
    match file.tokens.find? fun t => loc < t.offset with
    | some t => if t.semi then some (.at' t.offset) else file.semiAfter fuel t.offset
    | none => file.semiAfter fuel file.size := by
  simp only [semiAfter, lexFromRawLexer, lex_end]
  cases file.tokens.find? fun t => loc < t.offset with
  | none => simp
  | some t => cases semi : t.semi <;> simp [semi]

/-- At the end of the file the recursion calls itself for the same place. -/
theorem semiAfter_stuck (last : ∀ t ∈ file.tokens, t.offset ≤ loc) (fuel : Nat) :
    file.semiAfter fuel loc = none := by
  induction fuel generalizing loc with
  | zero => rfl
  | succ fuel ih =>
    have none' : file.tokens.find? (fun t => loc < t.offset) = none := by
      apply List.find?_eq_none.mpr
      intro t ht
      have := last t ht
      simp only [decide_eq_true_eq]
      omega
    simp only [semiAfter_succ, none']
    apply ih
    intro t ht
    have := file.inside t ht
    omega

theorem next_split (split : file.tokens = front ++ t :: rest) (before : ∀ t ∈ front, t.offset ≤ loc)
    (lt : loc < t.offset) : file.tokens.find? (fun t => loc < t.offset) = some t := by
  have skipped : front.find? (fun t => loc < t.offset) = none := by
    apply List.find?_eq_none.mpr
    intro s hs
    have := before s hs
    simp only [decide_eq_true_eq]
    omega
  rw [split, List.find?_append, skipped, Option.none_or]
  exact List.find?_cons_of_pos (decide_eq_true lt)

theorem semiAfter_split (file : RawText) (loc : Nat) (split : file.tokens = front ++ rest)
    (before : ∀ t ∈ front, t.offset ≤ loc) :
    match Valet.semiAfter rest loc with
    | some tok => ∃ fuel, file.semiAfter fuel loc = some (.at' tok.offset)
    | none => ∀ fuel, file.semiAfter fuel loc = none := by
  induction rest generalizing front loc with
  | nil =>
    apply semiAfter_stuck
    intro t ht
    apply before
    simpa [split] using ht
  | cons t rest ih =>
    have split' : file.tokens = (front ++ [t]) ++ rest := by simp [split]
    have upTo : ∀ {loc'}, loc ≤ loc' → t.offset ≤ loc' → ∀ s ∈ front ++ [t], s.offset ≤ loc' := by
      intro loc' le here s hs
      rcases List.mem_append.mp hs with hs | hs
      · exact Nat.le_trans (before s hs) le
      · cases List.mem_singleton.mp hs
        exact here
    unfold Valet.semiAfter
    by_cases passed : t.offset ≤ loc
    · simp only [if_pos passed]
      exact ih loc split' (upTo (Nat.le_refl _) passed)
    · have lt : loc < t.offset := Nat.lt_of_not_le passed
      have next := next_split split before lt
      simp only [if_neg passed]
      cases semi : t.semi with
      | true =>
        refine ⟨1, ?_⟩
        simp only [semiAfter_succ, next, semi, if_true]
      | false =>
        have rounds := ih t.offset split' (upTo (Nat.le_of_lt lt) (Nat.le_refl _))
        simp only [Bool.false_eq_true, if_false]
        cases found : Valet.semiAfter rest t.offset with
        | some tok =>
          simp only [found] at rounds
          obtain ⟨fuel, run⟩ := rounds
          refine ⟨fuel + 1, ?_⟩
          simp only [semiAfter_succ, next, semi, Bool.false_eq_true, if_false, run]
        | none =>
          simp only [found] at rounds
          intro fuel
          cases fuel with
          | zero => rfl
          | succ fuel =>
            simp only [semiAfter_succ, next, semi, Bool.false_eq_true, if_false, rounds]

/-- The search through a list of tokens finds the first semicolon behind `loc`. -/
theorem search_eq_find {tokens : List Token}
    (apart : tokens.Pairwise fun s t => s.offset + s.length ≤ t.offset)
    (nonempty : ∀ t ∈ tokens, 0 < t.length) (loc : Nat) :
    Valet.semiAfter tokens loc = tokens.find? fun t => t.semi && loc < t.offset := by
  induction tokens generalizing loc with
  | nil => rfl
  | cons t tokens ih =>
    obtain ⟨behind, apart⟩ := List.pairwise_cons.mp apart
    obtain ⟨long, nonempty⟩ := List.forall_mem_cons.mp nonempty
    unfold Valet.semiAfter
    split
    · rename_i passed
      rw [ih apart nonempty, List.find?_cons_of_neg]
      simp only [Bool.and_eq_true, decide_eq_true_eq]
      omega
    · rename_i ahead
      cases semi : t.semi with
      | true =>
        rw [List.find?_cons_of_pos]
        · rfl
        · simp only [semi, Bool.true_and, decide_eq_true_eq]
          omega
      | false =>
        rw [List.find?_cons_of_neg (by simp [semi])]
        apply (ih apart nonempty t.offset).trans
        apply find_congr
        -- all that is left is behind `t`, and so behind `loc`
        intro s hs
        have after := behind s hs
        have both : t.offset < s.offset ∧ loc < s.offset := by omega
        simp only [both.1, both.2]

theorem search_some (found : Valet.semiAfter file.tokens loc = some t) :
    file.FirstSemi loc t.offset := by
  rw [search_eq_find file.apart file.nonempty] at found
  obtain ⟨here, front, rest, split, before⟩ := List.find?_eq_some_iff_append.mp found
  simp only [Bool.and_eq_true, decide_eq_true_eq] at here
  have mem : t ∈ file.tokens := List.mem_of_find?_eq_some found
  refine ⟨⟨t, mem, here.1, rfl⟩, here.2, ?_⟩
  intro s hs semi lt
  rw [split] at hs
  rcases List.mem_append.mp hs with hs | hs
  · have other := before s hs
    simp [semi, lt] at other
  · rcases List.mem_cons.mp hs with rfl | hs
    · exact Nat.le_refl _
    · have apart := (List.pairwise_append.mp (split ▸ file.apart)).2.1
      have behind := (List.pairwise_cons.mp apart).1 s hs
      omega

theorem search_none (found : Valet.semiAfter file.tokens loc = none) : ¬ file.SemiBehind loc := by
  rw [search_eq_find file.apart file.nonempty] at found
  rintro ⟨t, mem, semi, lt⟩
  have other := List.find?_eq_none.mp found t mem
  simp [semi, lt] at other

/-- The recursion comes back with what the search finds, and from nothing else. -/
theorem semiAfter_eq_search (file : RawText) (loc : Nat) :
    match Valet.semiAfter file.tokens loc with
    | some tok => (∃ fuel, file.semiAfter fuel loc = some (.at' tok.offset)) ∧
        file.FirstSemi loc tok.offset
    | none => (∀ fuel, file.semiAfter fuel loc = none) ∧ ¬ file.SemiBehind loc := by
  have recursion := semiAfter_split file loc (List.nil_append _).symm (List.forall_mem_nil _)
  cases found : Valet.semiAfter file.tokens loc with
  | some tok =>
    simp only [found] at recursion
    exact ⟨recursion, search_some found⟩
  | none =>
    simp only [found] at recursion
    exact ⟨recursion, search_none found⟩

theorem settles_of_search {tok : Token} (found : Valet.semiAfter file.tokens loc = some tok) :
    file.Settles loc := by
  have both := semiAfter_eq_search file loc
  simp only [found] at both
  obtain ⟨⟨fuel, run⟩, first⟩ := both
  exact ⟨fuel, .at' tok.offset, run, first⟩

/-- Without a semicolon behind it the recursion does not end. -/
theorem semi_after_settles_iff (file : RawText) (loc : Nat) :
    file.Settles loc ↔ file.SemiBehind loc := by
  have both := semiAfter_eq_search file loc
  cases found : Valet.semiAfter file.tokens loc with
  | some tok =>
    simp only [found] at both
    obtain ⟨t, mem, semi, here⟩ := both.2.1
    constructor
    · intro _
      exact ⟨t, mem, semi, here ▸ both.2.2.1⟩
    · intro _
      exact settles_of_search found
  | none =>
    simp only [found] at both
    constructor
    · rintro ⟨fuel, result, run, _⟩
      rw [both.1 fuel] at run
      cases run
    · intro behind
      exact absurd behind both.2

/-- The awaits of a `SourceFile` are some for which the recursion ends. -/
theorem awaits_settle (source : SourceFile) {f : SourceFunction} (mem : f ∈ source.functions)
    {aw : CoawaitExpr} (own : aw ∈ f.decl.awaits) (same : file.tokens = source.tokens f.file) :
    file.Settles (f.ends aw.at').offset := by
  obtain ⟨tok, found⟩ := Option.isSome_iff_exists.mp (source.semi f mem aw own)
  exact settles_of_search (same ▸ found)

/-- A token that begins with `first`. -/
def lexeme (gap : String) (first : Char) (more : String) : Lexeme :=
  ⟨gap.toList, first :: more.toList, first = ';', List.cons_ne_nil _ _⟩

/-- `ser_ctx<> f(A x) { while (co_await x) {} }` at the end of a file. -/
def lastLoop : RawText := ofLexemes [lexeme "" 's' "er_ctx", lexeme "" '<' "", lexeme "" '>' "",
  lexeme " " 'f' "", lexeme "" '(' "", lexeme "" 'A' "", lexeme " " 'x' "", lexeme "" ')' "",
  lexeme " " '{' "", lexeme " " 'w' "hile", lexeme " " '(' "", lexeme "" 'c' "o_await",
  lexeme " " 'x' "", lexeme "" ')' "", lexeme " " '{' "", lexeme "" '}' "", lexeme " " '}' ""] ['\n']

theorem not_semi_after_settles : ¬ ∀ (file : RawText) (loc : Nat), file.Settles loc := by
  intro claim
  obtain ⟨fuel, found, run, _⟩ := claim lastLoop 35
  have none' : Valet.semiAfter lastLoop.tokens 35 = none := by decide
  have both := semiAfter_eq_search lastLoop 35
  simp only [none'] at both
  rw [both.1 fuel] at run
  cases run

end RawText

end Valor.Valet
