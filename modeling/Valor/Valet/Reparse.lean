import Valor.Valet.Insert

/-! How the text with the calls in it reads as statements. Behind an unbraced condition only
the first of the three statements that a `co_await` has become stays; the others come after
the whole statement, or in front of an `else` that then has no `if`. -/
namespace Valor.Valet

open Code

variable (names : Nat → List String)

/-- A statement with what spills out of it, in front of the rest. -/
def spillJoin (first : Option (Source × Source)) (rest : Option Source) : Option Source := do
  let (stmt, spill) ← first
  let rest ← rest
  return stmt.append (spill.append rest)

/-- The first of some statements, with what spills out of it, and all of them. -/
def spilled : Source → Option (Source × Source) × Option Source
  | nil => (none, some nil)
  | block b rest =>
    let first := (spilled b).2.map fun b => (block b nil, nil)
    (first, spillJoin first (spilled rest).2)
  | expr x e rest => (some (expr x e nil, nil), spillJoin (some (expr x e nil, nil)) (spilled rest).2)
  | coawait s e rest =>
    let first := some (save (s + 1) (names s) nil, coawait s e (load (s + 1) (names s) nil))
    (first, spillJoin first (spilled rest).2)
  | if' c t e rest =>
    let first :=
      if e = nil then (spilled t).1.map fun t => (if' c t.1 nil nil, t.2)
      else (spilled t).1.bind fun t =>
        if t.2 = nil then (spilled e).1.map fun e => (if' c t.1 e.1 nil, e.2) else none
    (first, spillJoin first (spilled rest).2)
  | while' c b rest =>
    let first := (spilled b).1.map fun b => (while' c b.1 nil, b.2)
    (first, spillJoin first (spilled rest).2)
  | for' x i c inc b rest =>
    let first := (spilled b).1.map fun b => (for' x i c inc b.1 nil, b.2)
    (first, spillJoin first (spilled rest).2)
  | save _ _ _ | load _ _ _ | preamble _ _ => (none, none)

abbrev spillFirst (c : Source) : Option (Source × Source) := (spilled names c).1

abbrev spill (c : Source) : Option Source := (spilled names c).2

variable {names} {c stmt tail : Source}

theorem spillFirst_tail (h : spillFirst names c = some (stmt, tail)) :
    tail = nil ∨ ∃ s e, e.id ∈ c.operands ∧ tail = coawait s e (load (s + 1) (names s) nil) := by
  induction c generalizing stmt tail with
  | nil => cases h
  | block b rest =>
    obtain ⟨_, _, same⟩ := Option.map_eq_some_iff.mp h
    cases same
    exact .inl rfl
  | expr x e rest =>
    cases h
    exact .inl rfl
  | coawait s e rest =>
    cases h
    exact .inr ⟨s, e, List.mem_cons_self, rfl⟩
  | if' c t e rest ih ih' =>
    simp only [spillFirst, spilled] at h
    split at h
    · obtain ⟨_, ht, same⟩ := Option.map_eq_some_iff.mp h
      cases same
      exact (ih ht).imp_right fun ⟨s, e, mem, same⟩ => ⟨s, e, List.mem_append_left _ mem, same⟩
    · obtain ⟨_, _, h⟩ := Option.bind_eq_some_iff.mp h
      split at h
      · obtain ⟨_, he, same⟩ := Option.map_eq_some_iff.mp h
        cases same
        exact (ih' he).imp_right fun ⟨s, e, mem, same⟩ =>
          ⟨s, e, List.mem_append_right _ (List.mem_append_left _ mem), same⟩
      · cases h
  | while' c b rest ih =>
    obtain ⟨_, hb, same⟩ := Option.map_eq_some_iff.mp h
    cases same
    exact (ih hb).imp_right fun ⟨s, e, mem, same⟩ => ⟨s, e, List.mem_append_left _ mem, same⟩
  | for' x i c inc b rest ih =>
    obtain ⟨_, hb, same⟩ := Option.map_eq_some_iff.mp h
    cases same
    exact (ih hb).imp_right fun ⟨s, e, mem, same⟩ => ⟨s, e, List.mem_append_left _ mem, same⟩
  | _ => cases h

/-! ## Completing statements -/

/-- What the parser does when a statement is complete. -/
def complete (stmt : Source) (st : List Frame) (ts : List Tok) : Option Source :=
  (reduce (startsElse ts) stmt st).bind fun st => parse ts st

variable {st : List Frame} {before : Source} {ts : List Tok}

theorem complete_block (next : startsElse ts = false) :
    complete stmt (.block before :: st) ts = parse ts (.block (before.append stmt) :: st) := by
  simp [complete, reduce, next]

theorem complete_block_else (next : startsElse ts = true) :
    complete stmt (.block before :: st) ts = none := by
  simp [complete, reduce, next]

theorem reduce_block (h : reduce false stmt st = some st') :
    ∃ before st'', st' = .block before :: st'' := by
  induction st generalizing stmt with
  | nil => cases h
  | cons frame st ih =>
    cases frame with
    | block before =>
      cases h
      exact ⟨_, _, rfl⟩
    | ifThen c t => cases h
    | _ => exact ih h

/-- A spilled await: it goes behind the statement, into the block around it. -/
theorem parse_spill (s : Nat) (e : Expr) (n : Nat) (vars : List String) (next : startsElse ts = false) :
    parse ((coawait s e (load n vars nil)).print ++ ts) (.block before :: st) =
      parse ts (.block (before.append (coawait s e (load n vars nil))) :: st) := by
  have first : parse ((coawait s e (load n vars nil)).print ++ ts) (.block before :: st) =
      complete (coawait s e nil) (.block before :: st) (.load n vars :: .semi :: ts) := rfl
  have second : ∀ before, parse (.load n vars :: .semi :: ts) (.block before :: st) =
      complete (load n vars nil) (.block before :: st) ts := fun _ => rfl
  rw [first, complete_block rfl, second, complete_block next, append_assoc]
  rfl

/-- Before an `else` the spilled await ends the `if`. -/
theorem complete_spill_else (s : Nat) (e : Expr) (n : Nat) (vars : List String) :
    complete stmt st ((coawait s e (load n vars nil)).print ++ .else' :: ts) = none := by
  have next : startsElse ((coawait s e (load n vars nil)).print ++ .else' :: ts) = false := rfl
  rw [complete, next]
  cases h : reduce false stmt st with
  | none => rfl
  | some st' =>
    obtain ⟨before, st'', rfl⟩ := reduce_block h
    have first : parse ((coawait s e (load n vars nil)).print ++ .else' :: ts) (.block before :: st'') =
        complete (coawait s e nil) (.block before :: st'') (.load n vars :: .semi :: .else' :: ts) := rfl
    have second : ∀ before, parse (.load n vars :: .semi :: .else' :: ts) (.block before :: st'') =
        complete (load n vars nil) (.block before :: st'') (.else' :: ts) := fun _ => rfl
    rw [Option.bind_some, first, complete_block rfl, second, complete_block_else rfl]

theorem parse_rbrace {body : Source} (inner : st ≠ []) (ts : List Tok) :
    parse (.rbrace :: ts) (.block body :: st) = complete (block body nil) st ts := by
  cases st with
  | nil => contradiction
  | cons frame st => cases ts <;> rfl

theorem startsElse_splice (c : Source) (next : startsElse ts = false) :
    startsElse (splice names c.print ++ ts) = false := by
  cases c <;> first | exact next | rfl

theorem startsElse_tail (h : spillFirst names c = some (stmt, tail)) (next : startsElse ts = false) :
    startsElse (tail.print ++ ts) = false := by
  rcases spillFirst_tail h with rfl | ⟨s, e, _, rfl⟩
  · exact next
  · rfl

theorem complete_if {cond : Cond} (next : startsElse ts = false) :
    complete stmt (.if' cond :: st) ts = complete (if' cond stmt nil nil) st ts := by
  simp [complete, reduce, next]

theorem complete_then {cond : Cond} (ts : List Tok) : complete stmt (.if' cond :: st) (.else' :: ts) =
    parse ts (.else' cond stmt :: st) := by
  simp only [complete, reduce, startsElse, if_true, Option.bind_some]
  rfl

/-- How the text of the first statement and of all of them reads. -/
structure Reparses (names : Nat → List String) (c : Source) : Prop where
  first : ∀ {stmt tail} (ts st), st ≠ [] → spillFirst names c = some (stmt, tail) →
    (startsElse ts = true → ¬ c.Open) →
    parse (splice names c.head.print ++ ts) st = complete stmt st (tail.print ++ ts)
  stuck : ∀ ts st, c ≠ nil → spillFirst names c = none →
    parse (splice names c.head.print ++ ts) st = none
  all : ∀ {c' ts before st}, spill names c = some c' → startsElse ts = false →
    parse (splice names c.print ++ ts) (.block before :: st) =
      parse ts (.block (before.append c') :: st)
  lost : ∀ {ts before st}, spill names c = none →
    parse (splice names c.print ++ ts) (.block before :: st) = none

theorem Reparses.join {rest : Source} (ne : c ≠ nil) (text : c.print = c.head.print ++ rest.print)
    (joined : spill names c = spillJoin (spillFirst names c) (spill names rest))
    (ih : Reparses names rest)
    (first : ∀ {stmt tail} (ts st), st ≠ [] → spillFirst names c = some (stmt, tail) →
      (startsElse ts = true → ¬ c.Open) →
      parse (splice names c.head.print ++ ts) st = complete stmt st (tail.print ++ ts))
    (stuck : ∀ ts st, c ≠ nil → spillFirst names c = none →
      parse (splice names c.head.print ++ ts) st = none) : Reparses names c := by
  have split : ∀ ts, splice names c.print ++ ts =
      splice names c.head.print ++ (splice names rest.print ++ ts) := by
    intro ts
    rw [text, splice_append (awaitsEnd_print _), List.append_assoc]
  have one : ∀ {stmt tail ts before st}, spillFirst names c = some (stmt, tail) →
      startsElse ts = false → parse (splice names c.head.print ++ ts) (.block before :: st) =
        parse ts (.block (before.append (stmt.append tail)) :: st) := by
    intro stmt tail ts before st h next
    rw [first _ _ (List.cons_ne_nil _ _) h (by simp [next]), complete_block (startsElse_tail h next)]
    rcases spillFirst_tail h with rfl | ⟨s, e, _, rfl⟩
    · rw [append_nil]
      rfl
    · rw [parse_spill s e _ _ next, append_assoc]
  refine ⟨first, stuck, ?_, ?_⟩
  · intro c' ts before st h next
    rw [joined] at h
    obtain ⟨⟨stmt, tail⟩, hfirst, h⟩ := Option.bind_eq_some_iff.mp h
    obtain ⟨rest', hrest, h⟩ := Option.bind_eq_some_iff.mp h
    cases h
    rw [split, one hfirst (startsElse_splice rest next), ih.all hrest next]
    simp only [append_assoc]
  · intro ts before st h
    rw [split]
    cases hfirst : spillFirst names c with
    | none => exact stuck _ _ ne hfirst
    | some parts =>
      have hrest : spill names rest = none := by
        rw [joined, hfirst] at h
        cases hrest : spill names rest with
        | none => rfl
        | some rest' => rw [hrest] at h; cases h
      have next : startsElse (splice names rest.print ++ ts) = false := by
        cases rest <;> first | rfl | cases hrest
      rw [one hfirst next, ih.lost hrest]

theorem Reparses.loop {b rest : Source} (tok : Tok) {frame : Frame} {wrap : Source → Source}
    (ne : c ≠ nil) (text : c.print = c.head.print ++ rest.print)
    (joined : spill names c = spillJoin (spillFirst names c) (spill names rest))
    (ihb : Reparses names b) (ih : Reparses names rest) (body : b ≠ nil) (single : b.head = b)
    (front : ∀ ts, splice names c.head.print ++ ts = tok :: (splice names b.print ++ ts))
    (spills : spillFirst names c = (spillFirst names b).map fun p => (wrap p.1, p.2))
    (same : c.Open = b.Open)
    (push : ∀ ts st, parse (tok :: ts) st = parse ts (frame :: st))
    (pop : ∀ stmt st ts, complete stmt (frame :: st) ts = complete (wrap stmt) st ts) :
    Reparses names c := by
  refine .join ne text joined ih ?_ ?_
  · intro stmt tail ts st _ h closed
    rw [spills] at h
    obtain ⟨⟨b', tail'⟩, hb, parts⟩ := Option.map_eq_some_iff.mp h
    cases parts
    have run := ihb.first ts (frame :: st) (List.cons_ne_nil _ _) hb (same ▸ closed)
    rw [single] at run
    rw [front, push, run, pop]
  · intro ts st _ h
    rw [spills] at h
    have stuck := ihb.stuck ts (frame :: st) body (Option.map_eq_none_iff.mp h)
    rw [single] at stuck
    rw [front, push, stuck]

theorem Reparses.if_else {cond : Cond} {t e rest : Source} (formed : (if' cond t e rest).Formed)
    (iht : Reparses names t) (ihe : Reparses names e) (ih : Reparses names rest) :
    Reparses names (if' cond t e rest) := by
  obtain ⟨⟨ne, single⟩, _, choice, _, _⟩ := formed
  have text : ∀ ts, splice names (head (if' cond t e rest)).print ++ ts = .if' cond ::
      (splice names t.print ++ ((if e = nil then [] else .else' :: splice names e.print) ++ ts)) := by
    intro ts
    simp only [head, print, splice_plain (t := Tok.if' cond) rfl, splice_append (awaitsEnd_print t)]
    split <;> simp [splice]
  refine .join (by simp) (by simp [print, head]) rfl ih ?_ ?_
  · intro stmt tail ts st _ h closed
    have next : startsElse ts = true → ¬ (e = nil ∨ e.Open) := closed
    simp only [spillFirst, spilled] at h
    rw [text]
    by_cases none : e = nil
    · have plain : startsElse ts = false := by
        cases hts : startsElse ts with
        | false => rfl
        | true => exact absurd (.inl none) (next hts)
      rw [if_pos none] at h ⊢
      obtain ⟨⟨t', tail'⟩, ht, same⟩ := Option.map_eq_some_iff.mp h
      cases same
      have run := iht.first ts (.if' cond :: st) (List.cons_ne_nil _ _) ht (by simp [plain])
      rw [single] at run
      exact run.trans (complete_if (startsElse_tail ht plain))
    · rw [if_neg none] at h ⊢
      obtain ⟨⟨t', tail'⟩, ht, h⟩ := Option.bind_eq_some_iff.mp h
      split at h
      · rename_i empty
        cases empty
        obtain ⟨⟨e', tail''⟩, he, same⟩ := Option.map_eq_some_iff.mp h
        cases same
        obtain ⟨⟨_, singleE⟩, closedT⟩ := choice.resolve_left none
        have first := iht.first (.else' :: (splice names e.print ++ ts)) (.if' cond :: st)
          (List.cons_ne_nil _ _) ht fun _ => closedT
        have second := ihe.first ts (.else' cond t' :: st) (List.cons_ne_nil _ _) he
          fun hts opened => next hts (.inr opened)
        rw [single] at first
        rw [singleE] at second
        exact first.trans ((complete_then _).trans second)
      · cases h
  · intro ts st _ h
    simp only [spillFirst, spilled] at h
    rw [text]
    by_cases none : e = nil
    · rw [if_pos none] at h ⊢
      have stuck := iht.stuck ts (.if' cond :: st) ne (Option.map_eq_none_iff.mp h)
      rw [single] at stuck
      exact stuck
    · rw [if_neg none] at h ⊢
      obtain ⟨⟨neE, singleE⟩, closedT⟩ := choice.resolve_left none
      cases ht : spillFirst names t with
      | none =>
        have stuck := iht.stuck (.else' :: (splice names e.print ++ ts)) (.if' cond :: st) ne ht
        rw [single] at stuck
        exact stuck
      | some parts =>
        obtain ⟨t', tail⟩ := parts
        have first := iht.first (.else' :: (splice names e.print ++ ts)) (.if' cond :: st)
          (List.cons_ne_nil _ _) ht fun _ => closedT
        rw [single] at first
        rw [show (spilled names t).1 = some (t', tail) from ht, Option.bind_some] at h
        rcases spillFirst_tail ht with rfl | ⟨s, e', _, rfl⟩
        · rw [if_pos rfl] at h
          have stuck := ihe.stuck ts (.else' cond t' :: st) neE (Option.map_eq_none_iff.mp h)
          rw [singleE] at stuck
          exact first.trans ((complete_then _).trans stuck)
        · exact first.trans (complete_spill_else s e' _ _)

theorem reparses (c : Source) (formed : c.Formed) : Reparses names c := by
  induction c with
  | nil =>
    refine ⟨?_, fun _ _ ne => absurd rfl ne, ?_, ?_⟩
    · intro stmt tail ts st _ h
      cases h
    · intro c' ts before st h _
      cases h
      rw [append_nil]
      rfl
    · intro ts before st h
      cases h
  | block b rest ih ih' =>
    obtain ⟨inner, later⟩ := formed
    have text : ∀ ts, splice names (head (block b rest)).print ++ ts =
        .lbrace :: (splice names b.print ++ .rbrace :: ts) := by
      intro ts
      simp only [head, print, splice_plain (t := Tok.lbrace) rfl, splice_append (awaitsEnd_print b)]
      simp [splice]
    refine .join (by simp) (by simp [print, head]) rfl (ih' later) ?_ ?_
    · intro stmt tail ts st ne h _
      obtain ⟨b', hb, same⟩ := Option.map_eq_some_iff.mp h
      cases same
      rw [text]
      exact ((ih inner).all hb rfl).trans (parse_rbrace ne ts)
    · intro ts st _ h
      rw [text]
      exact (ih inner).lost (Option.map_eq_none_iff.mp h)
  | expr x e rest ih =>
    refine .join (by simp) rfl rfl (ih formed) ?_ ?_
    · intro stmt tail ts st _ h _
      cases h
      rfl
    · intro ts st _ h
      cases h
  | coawait s e rest ih =>
    refine .join (by simp) rfl rfl (ih formed) ?_ ?_
    · intro stmt tail ts st _ h _
      cases h
      rfl
    · intro ts st _ h
      cases h
  | if' cond t e rest iht ihe ih =>
    exact .if_else formed (iht formed.2.1) (ihe formed.2.2.2.1) (ih formed.2.2.2.2)
  | while' cond b rest ihb ih =>
    obtain ⟨⟨ne, single⟩, inner, later⟩ := formed
    refine .loop (.while' cond) (by simp) (by simp [print, head]) rfl (ihb inner) (ih later) ne
      single ?_ rfl rfl (fun _ _ => rfl) (fun _ _ _ => rfl)
    intro ts
    simp [head, print, splice_plain (t := Tok.while' cond) rfl]
  | for' x i cond inc b rest ihb ih =>
    obtain ⟨⟨ne, single⟩, inner, later⟩ := formed
    refine .loop (.for' x i cond inc) (by simp) (by simp [print, head]) rfl (ihb inner)
      (ih later) ne single ?_ rfl rfl (fun _ _ => rfl) (fun _ _ _ => rfl)
    intro ts
    simp [head, print, splice_plain (t := Tok.for' x i cond inc) rfl]
  | _ => cases formed

/-- The text of a body between its braces. -/
def bodyText (c : Source) : List Tok := .lbrace :: (c.print ++ [.rbrace])

/-- The rewritten text, read as statements again. -/
theorem parse_rewriteBody (p : Preamble) (formed : c.Formed) :
    (rewriteBody p names (bodyText c)).bind parseBody =
      (spill names c).map (preamble p) := by
  have ends : AwaitsEnd (c.print ++ [.rbrace]) := (awaitsEnd_print c).append (.plain rfl .nil)
  have text : splice names (c.print ++ [.rbrace]) = splice names c.print ++ [.rbrace] := by
    rw [splice_append (awaitsEnd_print c)]
    rfl
  rw [bodyText, rewriteBody_spec p names ends, Option.bind_some, text]
  have start : startsElse (splice names c.print ++ [.rbrace]) = false := startsElse_splice c rfl
  have first : parseBody (.lbrace :: .preamble p :: (splice names c.print ++ [.rbrace])) =
      complete (preamble p nil) [.block nil] (splice names c.print ++ [.rbrace]) := rfl
  rw [first, complete_block start]
  cases h : spill names c with
  | none => exact (reparses c formed).lost h
  | some c' => exact (reparses c formed).all h rfl

end Valor.Valet
