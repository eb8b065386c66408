import Valor.Valet.Layout

/-! Line numbers of a rewritten file, as a compiler counts them: by the ends of lines and the
`#line` directives that have been inserted. -/
namespace Valor.Valet

open Edits

/-! ## Directives -/

/-- The number in a `#line` directive at the start of a line. -/
def directive (cs : List Char) : Option Nat :=
  if "#line ".toList <+: cs then some (Nat.ofDigitChars 10 ((cs.drop 6).takeWhile Char.isDigit) 0)
  else none

/-- The line behind a text that starts on line `n`, where `next` is what the current line
says of the next. -/
def numberAfter (n : Nat) (next : Option Nat) : List Char → Nat
  | [] => n
  | c :: cs =>
    if c = '\n' then numberAfter (next.getD (n + 1)) (directive cs) cs else numberAfter n next cs

example : numberAfter 7 none "\n_valet_p->save(1, x);\n#line 42 // End of Valet save\n".toList = 42 := by
  decide

theorem numberAfter_line (n : Nat) (next : Option Nat) {cs : List Char} (one : '\n' ∉ cs) :
    numberAfter n next (cs ++ ['\n']) = next.getD (n + 1) := by
  induction cs with
  | nil => rfl
  | cons c cs ih =>
    simp only [List.mem_cons, not_or] at one
    rw [List.cons_append, numberAfter, if_neg (Ne.symm one.1), ih one.2]

theorem numberAfter_behind (n : Nat) (next : Option Nat) (front cs : List Char) :
    ∃ m, numberAfter n next (front ++ '\n' :: cs) = numberAfter m (directive cs) cs := by
  induction front generalizing n next with
  | nil => exact ⟨_, if_pos rfl⟩
  | cons c front ih =>
    rw [List.cons_append, numberAfter]
    split
    · exact ih _ _
    · exact ih _ _

theorem directive_number (n : Nat) {cs : List Char} (digits : ∀ c ∈ cs.head?, c.isDigit = false) :
    directive ("#line ".toList ++ ((toString n).toList ++ cs)) = some n := by
  have number : (toString n).toList = Nat.toDigits 10 n := by
    rw [Nat.toString_eq_repr, Nat.toList_repr]
  have all : ∀ c ∈ Nat.toDigits 10 n, c.isDigit = true := fun c mem =>
    Nat.isDigit_of_mem_toDigits (by decide) (by decide) mem
  have stop : cs.takeWhile Char.isDigit = [] := by
    cases cs with
    | nil => rfl
    | cons c cs => simp [digits c rfl]
  have drop : ("#line ".toList ++ ((toString n).toList ++ cs)).drop 6 = Nat.toDigits 10 n ++ cs := by
    rw [number]
    rfl
  rw [directive, if_pos (List.prefix_append _ _), drop, List.takeWhile_append_of_pos all, stop,
    List.append_nil, Nat.ofDigitChars_ten_toDigits]

/-- A text that ends in a `#line` directive of its own, whatever comes before. -/
def Sets (text : List Char) (lineno : Nat) : Prop :=
  (∀ n next, numberAfter n next text = lineno) ∧ '\n' ∈ text

theorem sets_line (verbose : Bool) (items : List Item) (lineno : Nat) {what : String}
    (one : '\n' ∉ what.toList) :
    Sets (textOfItems verbose (items ++ [.line lineno what])) lineno := by
  let comment : List Char := (if verbose then " // End of Valet " ++ what else "").toList
  have plain : '\n' ∉ comment := by
    simp only [comment]
    split
    · simpa using one
    · simp
  have text : textOfItems verbose (items ++ [.line lineno what]) = textOfItems verbose items ++
      '\n' :: ("#line ".toList ++ ((toString lineno).toList ++ (comment ++ ['\n']))) := by
    simp [textOfItems, Item.text_line, comment]
  have digits : ∀ c ∈ (comment ++ ['\n']).head?, c.isDigit = false := by
    simp only [comment]
    split <;> simp
  have number : '\n' ∉ "#line ".toList ++ ((toString lineno).toList ++ comment) := by
    have all : ∀ c ∈ (toString lineno).toList, c.isDigit = true := fun c mem => by
      rw [Nat.toString_eq_repr, Nat.toList_repr] at mem
      exact Nat.isDigit_of_mem_toDigits (by decide) (by decide) mem
    have away : '\n' ∉ (toString lineno).toList := fun mem => absurd (all _ mem) (by decide)
    simp only [List.mem_append, not_or]
    exact ⟨by decide, away, plain⟩
  rw [text]
  refine ⟨fun n next => ?_, by simp⟩
  obtain ⟨m, same⟩ := numberAfter_behind n next (textOfItems verbose items)
    ("#line ".toList ++ ((toString lineno).toList ++ (comment ++ ['\n'])))
  rw [same, directive_number lineno digits]
  have one := numberAfter_line m (some lineno) number
  simpa only [List.append_assoc, Option.getD_some] using one

theorem save_sets (verbose : Bool) (n : Nat) (vars : List VarDecl) (lineno : Nat) :
    Sets (Emit.save verbose n (varList vars) lineno).toList lineno := by
  rw [save_text]
  exact sets_line verbose [.note "save", .save n (vars.map VarDecl.name)] lineno (by decide)

theorem load_sets (verbose : Bool) (n : Nat) (vars : List VarDecl) (lineno : Nat) :
    Sets (Emit.load verbose n (varsStrip vars) lineno).toList lineno := by
  rw [load_text]
  exact sets_line verbose [.note "load", .label n, .load (vars.map VarDecl.name)] lineno (by decide)

theorem preamble_sets (verbose : Bool) (ctxType : String) (labels lineno : Nat) :
    Sets (Emit.preamble verbose ctxType labels lineno).toList lineno := by
  rw [preamble_text]
  exact sets_line verbose [.promise ctxType, .dispatch labels (List.range (labels + 1)), .label 0]
    lineno (by decide)

/-! ## The insertions -/

/-- A file as it is written, with the tokens in groups that `#if` leaves out. What is
compiled is in none. -/
structure TextFile extends SourceFile where
  lexemes : Nat → List Lexeme
  skipped : Nat → Token → Bool
  written : ∀ fid, contents fid = textOf (lexemes fid)
  lexed : ∀ fid, tokens fid = tokensOf [] (lexemes fid)
  compiled : ∀ f ∈ functions, ∀ aw ∈ f.decl.awaits, skipped f.file (f.begins aw.at') = false

/-- An insertion at a token, or behind it. -/
structure Call where
  file : Nat
  tok : Token
  behind : Bool
  text : String

def Call.off (c : Call) : Nat := if c.behind then c.tok.offset + c.tok.length else c.tok.offset

def Call.edit (c : Call) : Edit := ⟨c.file, c.off, c.text⟩

namespace SourceFunction

def stageCalls (f : SourceFunction) (verbose : Bool) (tokens : List Token) (n : Nat)
    (st : Stage) : Option (List Call) :=
  let aw := f.begins st.aw.at'
  (semiAfter tokens (f.ends st.aw.at').offset).map fun semi =>
    [⟨f.file, aw, false, Emit.save verbose n (varList st.vars) aw.line⟩,
      ⟨f.file, semi, true, Emit.load verbose n (varsStrip st.vars) semi.line⟩]

def stagesCalls (f : SourceFunction) (verbose : Bool) (tokens : List Token) :
    Nat → List Stage → Option (List Call)
  | _, [] => some []
  | n, st :: ss => do
    let here ← f.stageCalls verbose tokens n st
    let rest ← f.stagesCalls verbose tokens (n + 1) ss
    return here ++ rest

def calls (f : SourceFunction) (verbose : Bool) (tokens : List Token) (ss : List Stage) :
    Option (List Call) :=
  (f.stagesCalls verbose tokens 1 ss).map fun calls =>
    ⟨f.file, f.brace, true, Emit.preamble verbose f.returnType ss.length f.brace.line⟩ :: calls

end SourceFunction

/-- The insertions of `rewrite`, in their order. -/
def insertionCalls (v : Valet) (file : SourceFile) : Stages → Option (List Call)
  | [] => some []
  | (i, ss) :: stages => do
    let f ← (file.matched v.skip)[i]?
    let here ← f.calls v.verbose (file.tokens f.file) ss
    let rest ← v.insertionCalls file stages
    return here ++ rest

/-- An insertion at a token of the file, with a directive for the line of that token. -/
structure Proper (file : TextFile) (c : Call) : Prop where
  mem : c.tok ∈ file.tokens c.file
  compiled : c.behind = false → file.skipped c.file c.tok = false
  sets : Sets c.text.toList c.tok.line

theorem stagesCalls_spec (file : TextFile) (verbose : Bool) {f : SourceFunction}
    (mem : f ∈ file.functions) {ss : List Stage} (stages : ∀ st ∈ ss, st.aw ∈ f.decl.awaits)
    (n : Nat) : ∃ calls, f.stagesCalls verbose (file.tokens f.file) n ss = some calls ∧
      f.patchStages verbose (file.tokens f.file) n ss = some (calls.map Call.edit) ∧
      ∀ c ∈ calls, Proper file c := by
  induction ss generalizing n with
  | nil => exact ⟨[], rfl, rfl, by simp⟩
  | cons st ss ih =>
    obtain ⟨rest, made, patched, proper⟩ :=
      ih (fun st mem => stages st (List.mem_cons_of_mem _ mem)) (n + 1)
    have await := stages st List.mem_cons_self
    obtain ⟨semi, found⟩ := Option.isSome_iff_exists.mp (file.semi f mem st.aw await)
    refine ⟨_, by simp only [SourceFunction.stagesCalls, SourceFunction.stageCalls, found, made,
      Option.map_some, Option.bind_eq_bind, Option.bind_some, pure]; rfl, ?_, ?_⟩
    · simp [SourceFunction.patchStages, SourceFunction.patchStage, found, patched, Call.edit,
        Call.off, SourceFunction.insertTextAfter, SourceFunction.insertTextAfterToken]
    · intro c here
      simp only [List.cons_append, List.nil_append, List.mem_cons] at here
      rcases here with rfl | rfl | here
      · exact ⟨file.begins f mem st.aw await, fun _ => file.compiled f mem st.aw await,
          save_sets _ _ _ _⟩
      · exact ⟨semiAfter_mem found, by simp, load_sets _ _ _ _⟩
      · exact proper c here

/-- The stages of functions that are matched. -/
def Known (file : SourceFile) (skip : List Nat) (stages : Stages) : Prop :=
  ∀ entry ∈ stages, ∃ f, (file.matched skip)[entry.1]? = some f ∧
    ∀ st ∈ entry.2, st.aw ∈ f.decl.awaits

theorem calls_spec (v : Valet) (file : TextFile) {stages : Stages}
    (known : Known file.toSourceFile v.skip stages) : ∃ cs,
      v.insertionCalls file.toSourceFile stages = some cs ∧
      v.edits file.toSourceFile stages = some (cs.map Call.edit) ∧ ∀ c ∈ cs, Proper file c := by
  induction stages with
  | nil => exact ⟨[], rfl, rfl, by simp⟩
  | cons entry stages ih =>
    obtain ⟨rest, made, asked, proper⟩ := ih fun entry mem => known entry (List.mem_cons_of_mem _ mem)
    obtain ⟨f, taken, awaits⟩ := known entry List.mem_cons_self
    obtain ⟨mem, coroutine, _⟩ := mem_matched (List.mem_of_getElem? taken)
    obtain ⟨here, made', patched, proper'⟩ := stagesCalls_spec file v.verbose mem awaits 1
    have first : Proper file ⟨f.file, f.brace, true,
        Emit.preamble v.verbose f.returnType entry.2.length f.brace.line⟩ :=
      ⟨file.brace f mem coroutine, by simp, preamble_sets _ _ _ _⟩
    refine ⟨_, by simp only [insertionCalls, taken, SourceFunction.calls, made', made, Option.map_some,
      Option.bind_eq_bind, Option.bind_some, pure]; rfl, ?_, ?_⟩
    · simp [edits, taken, SourceFunction.patch, patched, asked, Call.edit, Call.off,
        SourceFunction.insertTextAfterToken]
    · intro c mem
      rcases List.mem_append.mp mem with mem | mem
      · rcases List.mem_cons.mp mem with rfl | mem
        · exact first
        · exact proper' c mem
      · exact proper c mem

end Valor.Valet
