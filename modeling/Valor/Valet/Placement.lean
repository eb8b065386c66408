import Valor.Valet.Text

/-! Where `load` lands: the semicolon that is found for a `co_await`, in a body of nested
statements, expressions and lambdas. -/
namespace Valor.Valet

inductive Kind where
  | expr | header | stmt | stmts | handlers

/-- The text of a body as a tree, with its braces and semicolons told from other tokens.
`control` is an `if` without `else`, a `while`, a `switch` or a `for`; a header has all but
its last part followed by a semicolon. The expression of an `expr` can be a declaration, a
`co_return` or nothing, that of a `label` a `case`. What stands in `lambda` can also be the
members of a local class. The head of a handler has `n` tokens. -/
inductive Grammar : Kind → Type where
  | nil : Grammar .expr
  | token (rest : Grammar .expr) : Grammar .expr
  | coawait (operand rest : Grammar .expr) : Grammar .expr
  | lambda (body : Grammar .stmts) (rest : Grammar .expr) : Grammar .expr
  | last (e : Grammar .expr) : Grammar .header
  | init (e : Grammar .expr) (h : Grammar .header) : Grammar .header
  | expr (e : Grammar .expr) : Grammar .stmt
  | block (body : Grammar .stmts) : Grammar .stmt
  | control (h : Grammar .header) (s : Grammar .stmt) : Grammar .stmt
  | ifElse (h : Grammar .header) (s s' : Grammar .stmt) : Grammar .stmt
  | doWhile (s : Grammar .stmt) (e : Grammar .expr) : Grammar .stmt
  | label (e : Grammar .expr) (s : Grammar .stmt) : Grammar .stmt
  | tryBlock (body : Grammar .stmts) (hs : Grammar .handlers) : Grammar .stmt
  | handler (n : Nat) (body : Grammar .stmts) : Grammar .handlers
  | handlers (n : Nat) (body : Grammar .stmts) (hs : Grammar .handlers) : Grammar .handlers
  | empty : Grammar .stmts
  | cons (s : Grammar .stmt) (rest : Grammar .stmts) : Grammar .stmts

namespace Grammar

/-- For each token, whether it is a semicolon. -/
def print : {k : Kind} → Grammar k → List Bool
  | _, nil => []
  | _, token rest => false :: rest.print
  | _, coawait operand rest => false :: (operand.print ++ rest.print)
  | _, lambda body rest => false :: (body.print ++ false :: rest.print)
  | _, last e => e.print
  | _, init e h => e.print ++ true :: h.print
  | _, expr e => e.print ++ [true]
  | _, block body => false :: (body.print ++ [false])
  | _, control h s => false :: false :: (h.print ++ false :: s.print)
  | _, ifElse h s s' => false :: false :: (h.print ++ false :: (s.print ++ false :: s'.print))
  | _, doWhile s e => false :: (s.print ++ false :: false :: (e.print ++ [false, true]))
  | _, label e s => e.print ++ false :: s.print
  | _, tryBlock body hs => false :: false :: (body.print ++ false :: hs.print)
  | _, handler n body => List.replicate n false ++ false :: (body.print ++ [false])
  | _, handlers n body hs =>
    List.replicate n false ++ false :: (body.print ++ false :: hs.print)
  | _, empty => []
  | _, cons s rest => s.print ++ rest.print

/-- No semicolon anywhere. -/
def quiet : {k : Kind} → Grammar k → Bool
  | _, nil | _, empty => true
  | _, token rest => rest.quiet
  | _, coawait operand rest => operand.quiet && rest.quiet
  | _, lambda body rest => body.quiet && rest.quiet
  | _, last e => e.quiet
  | _, init _ _ | _, expr _ | _, doWhile _ _ => false
  | _, block body | _, handler _ body => body.quiet
  | _, control h s => h.quiet && s.quiet
  | _, ifElse h s s' => h.quiet && (s.quiet && s'.quiet)
  | _, label e s => e.quiet && s.quiet
  | _, tryBlock body hs | _, handlers _ body hs => body.quiet && hs.quiet
  | _, cons s rest => s.quiet && rest.quiet

/-- A statement whose one semicolon is at its end. -/
def closed : Grammar .stmt → Bool
  | expr e => e.quiet
  | block _ | tryBlock _ _ => false
  | control h s => h.quiet && s.closed
  | ifElse h s s' => h.quiet && (s.quiet && s'.closed)
  | doWhile s e => s.quiet && e.quiet
  | label e s => e.quiet && s.closed

/-- Whether a statement, with what follows it in the statement around it, has one
semicolon, at the end. -/
def behind (s : Grammar .stmt) : Option Bool → Bool
  | none => s.closed
  | some tail => s.quiet && tail

/-- A `co_await`: its last token, the last token of the statement that contains it in the
block directly around it, and whether the way to there has no other semicolon. -/
structure Found where
  endLoc : Nat
  last : Nat
  right : Bool
  deriving DecidableEq

/-- The `co_await`s from token `p` on, in a statement that ends with token `l`. The tail
tells of what follows in that statement whether its one semicolon is at its end, and is
`none` where nothing follows. -/
def awaits : {k : Kind} → Grammar k → Nat → Nat → Option Bool → List Found
  | _, nil, _, _, _ | _, empty, _, _, _ => []
  | _, token rest, p, l, tail => rest.awaits (p + 1) l tail
  | _, coawait operand rest, p, l, tail =>
    let right := rest.quiet && tail.getD false
    ⟨p + operand.print.length, l, right⟩ :: (operand.awaits (p + 1) l (some right) ++
      rest.awaits (p + 1 + operand.print.length) l tail)
  | _, lambda body rest, p, l, tail =>
    body.awaits (p + 1) 0 none ++ rest.awaits (p + 1 + body.print.length + 1) l tail
  | _, last e, p, l, tail => e.awaits p l tail
  | _, init e h, p, l, tail =>
    e.awaits p l (some false) ++ h.awaits (p + e.print.length + 1) l tail
  | _, expr e, p, l, tail => e.awaits p l (some tail.isNone)
  | _, block body, p, _, _ => body.awaits (p + 1) 0 none
  | _, control h s, p, l, tail =>
    h.awaits (p + 2) l (some (s.behind tail)) ++ s.awaits (p + 2 + h.print.length + 1) l tail
  | _, ifElse h s s', p, l, tail =>
    h.awaits (p + 2) l (some (s.quiet && s'.behind tail)) ++
      (s.awaits (p + 2 + h.print.length + 1) l (some (s'.behind tail)) ++
        s'.awaits (p + 2 + h.print.length + 1 + s.print.length + 1) l tail)
  | _, doWhile s e, p, l, tail =>
    s.awaits (p + 1) l (some (e.quiet && tail.isNone)) ++
      e.awaits (p + 1 + s.print.length + 2) l (some tail.isNone)
  | _, label e s, p, l, tail =>
    e.awaits p l (some (s.behind tail)) ++ s.awaits (p + e.print.length + 1) l tail
  | _, tryBlock body hs, p, _, _ =>
    body.awaits (p + 2) 0 none ++ hs.awaits (p + 2 + body.print.length + 1) 0 none
  | _, handler n body, p, _, _ => body.awaits (p + n + 1) 0 none
  | _, handlers n body hs, p, _, _ =>
    body.awaits (p + n + 1) 0 none ++ hs.awaits (p + n + 1 + body.print.length + 1) 0 none
  | _, cons s rest, p, _, _ =>
    s.awaits p (p + s.print.length - 1) none ++ rest.awaits (p + s.print.length) 0 none

theorem quiet_iff {k : Kind} (c : Grammar k) : c.quiet = true ↔ ∀ semi ∈ c.print, semi = false := by
  induction c <;> simp_all [quiet, print, or_imp, forall_and]

/-- One semicolon, at the end. -/
def Ends (ts : List Bool) : Prop := ∃ before, ts = before ++ [true] ∧ ∀ semi ∈ before, semi = false

theorem ends_append {ts us : List Bool} (ne : us ≠ []) :
    Ends (ts ++ us) ↔ (∀ semi ∈ ts, semi = false) ∧ Ends us := by
  constructor
  · rintro ⟨before, same, none⟩
    obtain ⟨us, u, rfl⟩ := (List.eq_nil_or_concat us).resolve_left ne
    rw [List.concat_eq_append, ← List.append_assoc] at same
    obtain ⟨rfl, end'⟩ := List.append_inj' same rfl
    cases List.singleton_inj.mp end'
    exact ⟨fun semi mem => none semi (List.mem_append_left _ mem), us, by simp, fun semi mem =>
      none semi (List.mem_append_right _ mem)⟩
  · rintro ⟨none, before, rfl, none'⟩
    refine ⟨ts ++ before, (List.append_assoc _ _ _).symm, fun semi mem => ?_⟩
    exact (List.mem_append.mp mem).elim (none semi) (none' semi)

theorem ends_singleton (semi : Bool) : Ends [semi] ↔ semi = true := by
  constructor
  · rintro ⟨before, same, _⟩
    have := congrArg List.getLast? same
    simpa using this
  · rintro rfl
    exact ⟨[], rfl, by simp⟩

theorem print_ne : ∀ s : Grammar .stmt, s.print ≠ []
  | expr _ | block _ | control _ _ | ifElse _ _ _ | doWhile _ _ | label _ _ | tryBlock _ _ => by
    simp [print]

theorem handlers_print : ∀ hs : Grammar .handlers, ∃ front, hs.print = front ++ [false]
  | handler n body => ⟨List.replicate n false ++ false :: body.print, by simp [print]⟩
  | handlers n body hs => by
    obtain ⟨front, same⟩ := handlers_print hs
    exact ⟨List.replicate n false ++ false :: (body.print ++ false :: front), by simp [print, same]⟩

theorem not_ends (front : List Bool) : ¬ Ends (front ++ [false]) := by
  rw [ends_append (by simp), ends_singleton]
  simp

theorem closed_iff : ∀ s : Grammar .stmt, s.closed = true ↔ Ends s.print
  | expr e => by
    rw [print, ends_append (by simp), ends_singleton, ← quiet_iff, closed]
    simp
  | block body => by
    have := not_ends (false :: body.print)
    simpa [print, closed] using this
  | tryBlock body hs => by
    obtain ⟨front, same⟩ := handlers_print hs
    have := not_ends (false :: false :: (body.print ++ false :: front))
    simpa [print, closed, same] using this
  | control h s => by
    have text : (control h s).print = ([false, false] ++ h.print ++ [false]) ++ s.print := by
      simp [print]
    rw [text, ends_append s.print_ne, ← closed_iff s, closed]
    simp [quiet_iff, or_imp]
  | ifElse h s s' => by
    have text : (ifElse h s s').print =
        ([false, false] ++ h.print ++ [false] ++ s.print ++ [false]) ++ s'.print := by
      simp [print]
    rw [text, ends_append s'.print_ne, ← closed_iff s', closed]
    simp [quiet_iff, or_imp, forall_and, and_assoc]
  | doWhile s e => by
    have text : (doWhile s e).print =
        ([false] ++ s.print ++ [false, false] ++ e.print ++ [false]) ++ [true] := by
      simp [print]
    rw [text, ends_append (by simp), ends_singleton, closed]
    simp [quiet_iff, or_imp, forall_and]
  | label e s => by
    have text : (label e s).print = (e.print ++ [false]) ++ s.print := by
      simp [print]
    rw [text, ends_append s.print_ne, ← closed_iff s, closed]
    simp [quiet_iff, or_imp]

/-- What follows in the statement, up to its last token `l`, if `n` tokens come before. -/
def Tail (l n : Nat) (tail : Option Bool) (rest : List Bool) : Prop :=
  l + 1 = n + rest.length ∧
    match tail with
    | none => rest = []
    | some right => rest ≠ [] ∧ (right = true ↔ Ends rest)

/-- Behind the parts of a statement there is more of it. -/
def Context (l n : Nat) (tail : Option Bool) (rest : List Bool) : Kind → Prop
  | .expr | .header => ∃ right, tail = some right ∧ Tail l n (some right) rest
  | .stmt => Tail l n tail rest
  | .stmts | .handlers => True

namespace Tail

variable {l n : Nat} {tail : Option Bool} {right : Bool} {rest : List Bool}

theorem behind (s : Grammar .stmt) (h : Tail l (n + s.print.length) tail rest) :
    Tail l n (some (s.behind tail)) (s.print ++ rest) := by
  obtain ⟨length, h⟩ := h
  refine ⟨by rw [length, List.length_append]; omega, by simp [s.print_ne], ?_⟩
  cases tail with
  | none =>
    cases h
    rw [List.append_nil]
    exact closed_iff s
  | some right => rw [ends_append h.1, ← h.2, ← quiet_iff, Grammar.behind, Bool.and_eq_true]

theorem quiet {k : Kind} (c : Grammar k) (h : Tail l (n + c.print.length) (some right) rest) :
    Tail l n (some (c.quiet && right)) (c.print ++ rest) := by
  obtain ⟨length, ne, h⟩ := h
  refine ⟨by rw [length, List.length_append]; omega, by simp [ne], ?_⟩
  rw [ends_append ne, ← h, ← quiet_iff, Bool.and_eq_true]

theorem token (h : Tail l (n + 1) (some right) rest) : Tail l n (some right) (false :: rest) := by
  have one := quiet (Grammar.token .nil) h
  rwa [show (Grammar.token .nil).quiet = true from rfl, Bool.true_and] at one

theorem semi (h : Tail l (n + 1) tail rest) : Tail l n (some tail.isNone) (true :: rest) := by
  obtain ⟨length, h⟩ := h
  refine ⟨by rw [length, List.length_cons]; omega, List.cons_ne_nil _ _, ?_⟩
  cases tail with
  | none =>
    cases h
    simp [ends_singleton]
  | some right =>
    rw [← List.singleton_append, ends_append h.1]
    simp

end Tail

/-- The tokens from a `co_await` to the end of its statement. -/
def Sound (ts : List Bool) (a : Found) : Prop :=
  ∃ before rest after, ts = before ++ (rest ++ after) ∧ before.length = a.endLoc + 1 ∧
    Tail a.last before.length (some a.right) rest

/-- The `co_await`s of a part are found where it stands. -/
def Located {k : Kind} (c : Grammar k) : Prop :=
  ∀ (before rest after : List Bool) {ts l p tail}, p = before.length →
    ts = before ++ (c.print ++ (rest ++ after)) → Context l (p + c.print.length) tail rest k →
    ∀ a ∈ c.awaits p l tail, Sound ts a

theorem Tail.at' {l n n' : Nat} {tail : Option Bool} {rest : List Bool} (h : Tail l n tail rest)
    (same : n' = n) : Tail l n' tail rest := same ▸ h

theorem located {k : Kind} (c : Grammar k) : Located c := by
  induction c with
  | nil | empty => exact fun _ _ _ _ _ _ _ _ _ _ _ mem => nomatch mem
  | token r ih =>
    rintro before rest after ts l p _ rfl rfl ⟨right, rfl, h⟩ a mem
    have hr : Tail l (before.length + 1 + r.print.length) (some right) rest :=
      h.at' (by simp [print]; omega)
    exact ih (before ++ [false]) rest after (by simp) (by simp [print]) ⟨_, rfl, hr⟩ a mem
  | coawait o r iho ih =>
    rintro before rest after ts l p _ rfl rfl ⟨right, rfl, h⟩ a mem
    have hr : Tail l (before.length + 1 + o.print.length + r.print.length) (some right) rest :=
      h.at' (by simp [print]; omega)
    have ho := hr.quiet r
    simp only [awaits, List.mem_cons, List.mem_append] at mem
    rcases mem with rfl | mem | mem
    · refine ⟨before ++ false :: o.print, r.print ++ rest, after, by simp [print], ?_, ?_⟩
      · simp
        omega
      · exact ho.at' (by simp; omega)
    · exact iho (before ++ [false]) (r.print ++ rest) after (by simp) (by simp [print])
        ⟨_, rfl, ho⟩ a mem
    · exact ih (before ++ false :: o.print) rest after (by simp; omega) (by simp [print])
        ⟨_, rfl, hr⟩ a mem
  | lambda b r ihb ih =>
    rintro before rest after ts l p _ rfl rfl ⟨right, rfl, h⟩ a mem
    have hr : Tail l (before.length + 1 + b.print.length + 1 + r.print.length) (some right) rest :=
      h.at' (by simp [print]; omega)
    rcases List.mem_append.mp mem with mem | mem
    · exact ihb (before ++ [false]) [] (false :: (r.print ++ (rest ++ after))) (by simp)
        (by simp [print]) trivial a mem
    · exact ih (before ++ false :: (b.print ++ [false])) rest after (by simp; omega)
        (by simp [print]) ⟨_, rfl, hr⟩ a mem
  | last e ih => exact fun before rest after ts l p tail => ih before rest after
  | init e h ih ih' =>
    rintro before rest after ts l p _ rfl rfl ⟨right, rfl, ht⟩ a mem
    have hh : Tail l (before.length + e.print.length + 1 + h.print.length) (some right) rest :=
      ht.at' (by simp [print]; omega)
    rcases List.mem_append.mp mem with mem | mem
    · exact ih before (true :: (h.print ++ rest)) after rfl (by simp [print])
        ⟨_, rfl, (hh.quiet h).semi⟩ a mem
    · exact ih' (before ++ e.print ++ [true]) rest after (by simp; omega) (by simp [print])
        ⟨_, rfl, hh⟩ a mem
  | expr e ih =>
    rintro before rest after ts l p tail rfl rfl h a mem
    have he : Tail l (before.length + e.print.length + 1) tail rest :=
      h.at' (by simp [print]; omega)
    exact ih before (true :: rest) after rfl (by simp [print]) ⟨_, rfl, he.semi⟩ a mem
  | block b ih =>
    rintro before rest after ts l p tail rfl rfl h a mem
    exact ih (before ++ [false]) [] (false :: (rest ++ after)) (by simp) (by simp [print])
      trivial a mem
  | control h s ih ih' =>
    rintro before rest after ts l p tail rfl rfl ht a mem
    have hs : Tail l (before.length + 2 + h.print.length + 1 + s.print.length) tail rest :=
      ht.at' (by simp [print]; omega)
    rcases List.mem_append.mp mem with mem | mem
    · exact ih (before ++ [false, false]) (false :: (s.print ++ rest)) after (by simp)
        (by simp [print]) ⟨_, rfl, (hs.behind s).token⟩ a mem
    · exact ih' (before ++ false :: false :: (h.print ++ [false])) rest after (by simp; omega)
        (by simp [print]) hs a mem
  | ifElse h s s' ih ih' ih'' =>
    rintro before rest after ts l p tail rfl rfl ht a mem
    have hs : Tail l (before.length + 2 + h.print.length + 1 + s.print.length + 1 +
        s'.print.length) tail rest := ht.at' (by simp [print]; omega)
    have he := (hs.behind s').token
    have inner : Context l (before.length + 2 + h.print.length + 1 + s.print.length)
        (some (s'.behind tail)) (false :: (s'.print ++ rest)) .stmt := he
    simp only [awaits, List.mem_append] at mem
    rcases mem with mem | mem | mem
    · exact ih (before ++ [false, false]) (false :: (s.print ++ false :: (s'.print ++ rest))) after
        (by simp) (by simp [print]) ⟨_, rfl, (he.quiet s).token⟩ a mem
    · exact ih' (before ++ false :: false :: (h.print ++ [false])) (false :: (s'.print ++ rest))
        after (by simp; omega) (by simp [print]) inner a mem
    · exact ih'' (before ++ false :: false :: (h.print ++ false :: (s.print ++ [false]))) rest after
        (by simp; omega) (by simp [print]) hs a mem
  | doWhile s e ih ih' =>
    rintro before rest after ts l p tail rfl rfl h a mem
    have he : Tail l (before.length + 1 + s.print.length + 2 + e.print.length + 2) tail rest :=
      h.at' (by simp [print]; omega)
    have end' := he.semi.token
    have inner : Context l (before.length + 1 + s.print.length) (some (e.quiet && tail.isNone))
      (false :: false :: (e.print ++ false :: true :: rest)) .stmt := (end'.quiet e).token.token
    rcases List.mem_append.mp mem with mem | mem
    · exact ih (before ++ [false]) (false :: false :: (e.print ++ false :: true :: rest)) after
        (by simp) (by simp [print]) inner a mem
    · exact ih' (before ++ false :: (s.print ++ [false, false])) (false :: true :: rest) after
        (by simp; omega) (by simp [print]) ⟨_, rfl, end'⟩ a mem
  | label e s ih ih' =>
    rintro before rest after ts l p tail rfl rfl h a mem
    have hs : Tail l (before.length + e.print.length + 1 + s.print.length) tail rest :=
      h.at' (by simp [print]; omega)
    rcases List.mem_append.mp mem with mem | mem
    · exact ih before (false :: (s.print ++ rest)) after rfl (by simp [print])
        ⟨_, rfl, (hs.behind s).token⟩ a mem
    · exact ih' (before ++ (e.print ++ [false])) rest after (by simp; omega) (by simp [print])
        hs a mem
  | tryBlock b hs ih ih' =>
    rintro before rest after ts l p tail rfl rfl h a mem
    rcases List.mem_append.mp mem with mem | mem
    · exact ih (before ++ [false, false]) [] (false :: (hs.print ++ (rest ++ after))) (by simp)
        (by simp [print]) trivial a mem
    · exact ih' (before ++ false :: false :: (b.print ++ [false])) [] (rest ++ after)
        (by simp; omega) (by simp [print]) trivial a mem
  | handler n b ih =>
    rintro before rest after ts l p tail rfl rfl _ a mem
    exact ih (before ++ (List.replicate n false ++ [false])) [] (false :: (rest ++ after))
      (by simp; omega) (by simp [print]) trivial a mem
  | handlers n b hs ih ih' =>
    rintro before rest after ts l p tail rfl rfl _ a mem
    rcases List.mem_append.mp mem with mem | mem
    · exact ih (before ++ (List.replicate n false ++ [false])) []
        (false :: (hs.print ++ (rest ++ after))) (by simp; omega) (by simp [print]) trivial a mem
    · exact ih' (before ++ (List.replicate n false ++ false :: (b.print ++ [false]))) []
        (rest ++ after) (by simp; omega) (by simp [print]) trivial a mem
  | cons s r ih ih' =>
    rintro before rest after ts l p tail rfl rfl _ a mem
    have pos := List.length_pos_iff.mpr s.print_ne
    rcases List.mem_append.mp mem with mem | mem
    · exact ih before [] (r.print ++ (rest ++ after)) rfl (by simp [print])
        ⟨by simp only [List.length_nil]; omega, rfl⟩ a mem
    · exact ih' (before ++ s.print) rest after (by simp) (by simp [print]) trivial a mem

end Grammar

open Grammar

theorem semiAfter_find {tokens : List Token} {loc : Nat}
    (order : tokens.Pairwise fun tok tok' => tok.offset < tok'.offset)
    (later : ∀ tok ∈ tokens, loc < tok.offset) : semiAfter tokens loc = tokens.find? Token.semi := by
  induction tokens generalizing loc with
  | nil => rfl
  | cons tok tokens ih =>
    obtain ⟨first, order⟩ := List.pairwise_cons.mp order
    have here := later tok List.mem_cons_self
    rw [semiAfter, if_neg (by omega), List.find?_cons]
    cases tok.semi with
    | true => rfl
    | false => exact ih order first

/-- The first semicolon is the last token of some just when these end with their only one. -/
theorem find_semi_iff {rest after : List Token} {tok : Token}
    (order : (rest ++ [tok] ++ after).Pairwise fun tok tok' => tok.offset < tok'.offset) :
    (rest ++ [tok] ++ after).find? Token.semi = some tok ↔
      Ends ((rest ++ [tok]).map Token.semi) := by
  rw [List.map_append, ends_append (by simp), List.map_singleton, ends_singleton]
  constructor
  · intro found
    refine ⟨fun semi mem => ?_, List.find?_some found⟩
    obtain ⟨early, here, rfl⟩ := List.mem_map.mp mem
    by_contra isSemi
    obtain ⟨first, taken⟩ := Option.isSome_iff_exists.mp
      (List.find?_isSome.mpr ⟨early, here, Bool.eq_true_of_not_eq_false isSemi⟩)
    rw [List.append_assoc, List.find?_append, taken] at found
    cases found
    rw [List.append_assoc] at order
    have := (List.pairwise_append.mp order).2.2 tok (List.mem_of_find?_eq_some taken) tok (by simp)
    omega
  · rintro ⟨none, isSemi⟩
    have skipped : rest.find? Token.semi = Option.none :=
      List.find?_eq_none.mpr fun early here => by
        simp [none early.semi (List.mem_map_of_mem here)]
    rw [List.append_assoc, List.find?_append, skipped]
    simp [isSemi]

def plainTokens (semis : List Bool) : List Token := semis.zipIdx.map fun p => ⟨p.2, 1, p.1, 1⟩

/-- `co_await x; y;` -/
def awaitAlone : Grammar .stmts :=
  .cons (.expr (.coawait (.token .nil) .nil)) (.cons (.expr (.token .nil)) .empty)

theorem awaitAlone_awaits : awaitAlone.awaits 0 0 none = [⟨1, 2, true⟩] := by
  simp [awaitAlone, awaits, print, quiet]

/-- `if (co_await x) { y; }` -/
def awaitInCondition : Grammar .stmts :=
  .cons (.control (.last (.coawait (.token .nil) .nil)) (.block (.cons (.expr (.token .nil)) .empty)))
    .empty

theorem awaitInCondition_awaits : awaitInCondition.awaits 0 0 none = [⟨3, 8, false⟩] := by
  simp [awaitInCondition, awaits, print, Grammar.behind, closed]

end Valor.Valet
