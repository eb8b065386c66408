import Valor.Valet.Collect

/-! The text that Valet puts into a function. -/
namespace Valor.Valet

namespace Emit

def jumpTableEntry (i : Nat) : String :=
  ", (char*)&&_valet_s" ++ toString i ++ " - (char*)&&_valet_s0"

def preamble (verbose : Bool) (ctxType : String) (labels lineno : Nat) : String :=
  (if verbose then "// Valet preamble\n" else "") ++
  "\nauto _valet_p = co_await valor::" ++ ctxType ++ "::get_promise\x7b\x7d;\n" ++
  "if (auto _valet_st = _valet_p->stage()) \x7b\n" ++
  "    assert(_valet_st <= " ++ toString labels ++ ");\n" ++
  "    // std::cerr << \"k: to stage \" << _valet_st << '\\n';\n" ++
  "    static ssize_t _valet_stages[] = \x7b0" ++
  String.join ((List.range' 1 labels).map jumpTableEntry) ++ "\x7d;\n" ++
  "    goto *(void*)((char*)&&_valet_s0 + _valet_stages[_valet_st]);\n" ++
  "\x7d\n_valet_s0:\n#line " ++ toString lineno ++
  (if verbose then " // End of Valet preamble" else "") ++ "\n"

def save (verbose : Bool) (stage : Nat) (varlist : String) (lineno : Nat) : String :=
  (if verbose then "\n// Valet stage save" else "") ++ "\n_valet_p->save(" ++ toString stage ++
  varlist ++ ");\n#line " ++ toString lineno ++
  (if verbose then " // End of Valet save" else "") ++ "\n"

def load (verbose : Bool) (stage : Nat) (varlist : String) (lineno : Nat) : String :=
  (if verbose then "\n// Valet stage load" else "") ++ "\n_valet_s" ++ toString stage ++
  ":\n_valet_p->load(" ++ varlist ++ ");\n#line " ++ toString lineno ++
  (if verbose then " // End of Valet load" else "") ++ "\n"

example : preamble false "ser_ctx<int>" 2 9 =
    "\nauto _valet_p = co_await valor::ser_ctx<int>::get_promise\x7b\x7d;
if (auto _valet_st = _valet_p->stage()) \x7b
    assert(_valet_st <= 2);
    // std::cerr << \"k: to stage \" << _valet_st << '\\n';
    static ssize_t _valet_stages[] = \x7b0, (char*)&&_valet_s1 - (char*)&&_valet_s0" ++
    ", (char*)&&_valet_s2 - (char*)&&_valet_s0\x7d;
    goto *(void*)((char*)&&_valet_s0 + _valet_stages[_valet_st]);
\x7d
_valet_s0:
#line 9
" := by decide +kernel

end Emit

/-- With a leading comma, as `save` wants it. -/
def varList (vars : List VarDecl) : String :=
  vars.foldl (fun s v => s ++ ", " ++ v.name) ""

/-- Without, as `load` does. -/
def varsStrip (vars : List VarDecl) : String := String.ofList ((varList vars).toList.drop 2)

/-- A token as the lexer finds it, with its place in the file. -/
structure Token where
  offset : Nat
  length : Nat
  semi : Bool
  line : Nat
  deriving DecidableEq

/-- The first semicolon after the token at `loc`; at the end of the file the search does
not come back. -/
def semiAfter : List Token → Nat → Option Token
  | [], _ => none
  | tok :: tokens, loc =>
    if tok.offset ≤ loc then semiAfter tokens loc
    else if tok.semi then some tok else semiAfter tokens tok.offset

/-- A function of a file. `begins` and `ends` are the first and last token of a `co_await`
expression, by its number. -/
structure SourceFunction where
  decl : FunctionDecl
  coroutine : Bool
  valorSkip : Bool
  returnType : String
  file : Nat
  brace : Token
  begins : Nat → Token
  ends : Nat → Token

/-- Text to be inserted at an offset of the file, after what is inserted there already. -/
structure Edit where
  file : Nat
  off : Nat
  text : String
  deriving DecidableEq

namespace SourceFunction

def insertTextAfter (f : SourceFunction) (tok : Token) (text : String) : Edit :=
  ⟨f.file, tok.offset, text⟩

def insertTextAfterToken (f : SourceFunction) (tok : Token) (text : String) : Edit :=
  ⟨f.file, tok.offset + tok.length, text⟩

def patchStage (f : SourceFunction) (verbose : Bool) (tokens : List Token) (n : Nat)
    (st : Stage) : Option (List Edit) :=
  let aw := f.begins st.aw.at'
  (semiAfter tokens (f.ends st.aw.at').offset).map fun semi =>
    [f.insertTextAfter aw (Emit.save verbose n (varList st.vars) aw.line),
      f.insertTextAfterToken semi (Emit.load verbose n (varsStrip st.vars) semi.line)]

/-- The stages from number `n` on. -/
def patchStages (f : SourceFunction) (verbose : Bool) (tokens : List Token) :
    Nat → List Stage → Option (List Edit)
  | _, [] => some []
  | n, st :: ss => do
    let edits ← f.patchStage verbose tokens n st
    let rest ← f.patchStages verbose tokens (n + 1) ss
    return edits ++ rest

/-- What `rewrite` does to a function, in this order. -/
def patch (f : SourceFunction) (verbose : Bool) (tokens : List Token) (ss : List Stage) :
    Option (List Edit) :=
  (f.patchStages verbose tokens 1 ss).map fun edits =>
    f.insertTextAfterToken f.brace (Emit.preamble verbose f.returnType ss.length f.brace.line) :: edits

end SourceFunction

/-- The lexer's tokens lie inside the text, and each `co_await` of a coroutine has one
behind it that is a semicolon. -/
structure SourceFile where
  contents : Nat → List Char
  tokens : Nat → List Token
  functions : List SourceFunction
  inside : ∀ fid, ∀ tok ∈ tokens fid, tok.offset + tok.length ≤ (contents fid).length
  brace : ∀ f ∈ functions, f.coroutine → f.brace ∈ tokens f.file
  begins : ∀ f ∈ functions, ∀ aw ∈ f.decl.awaits, f.begins aw.at' ∈ tokens f.file
  semi : ∀ f ∈ functions, ∀ aw ∈ f.decl.awaits,
    (semiAfter (tokens f.file) (f.ends aw.at').offset).isSome

theorem semiAfter_mem {tokens : List Token} {loc : Nat} {tok : Token}
    (h : semiAfter tokens loc = some tok) : tok ∈ tokens := by
  induction tokens generalizing loc with
  | nil => contradiction
  | cons t tokens ih =>
    simp only [semiAfter] at h
    split at h
    · exact List.mem_cons_of_mem _ (ih h)
    · split at h
      · cases h
        exact List.mem_cons_self
      · exact List.mem_cons_of_mem _ (ih h)

theorem append_newline_ne (s : String) : s ++ "\n" ≠ "" := by
  simp

namespace SourceFile

variable (file : SourceFile) (verbose : Bool) {f : SourceFunction} {ss : List Stage}

/-- All stages of a function of the file can be patched, and inside its text. -/
theorem patchStages_spec (mem : f ∈ file.functions)
    (stages : ∀ st ∈ ss, st.aw ∈ f.decl.awaits) (n : Nat) :
    ∃ edits, f.patchStages verbose (file.tokens f.file) n ss = some edits ∧
      ∀ e ∈ edits, e.off ≤ (file.contents e.file).length ∧ e.text ≠ "" := by
  induction ss generalizing n with
  | nil => exact ⟨[], rfl, by simp⟩
  | cons st ss ih =>
    obtain ⟨rest, patched, fits⟩ := ih (fun st mem => stages st (List.mem_cons_of_mem _ mem)) (n + 1)
    have await := stages st List.mem_cons_self
    obtain ⟨semi, found⟩ := Option.isSome_iff_exists.mp (file.semi f mem st.aw await)
    refine ⟨_, by simp only [SourceFunction.patchStages, SourceFunction.patchStage, found, patched,
      Option.map_some, Option.bind_eq_bind, Option.bind_some, pure]; rfl, ?_⟩
    intro e here
    simp only [List.cons_append, List.nil_append, List.mem_cons] at here
    rcases here with rfl | rfl | here
    · have := file.inside _ _ (file.begins f mem st.aw await)
      exact ⟨by simp only [SourceFunction.insertTextAfter]; omega, append_newline_ne _⟩
    · exact ⟨file.inside _ _ (semiAfter_mem found), append_newline_ne _⟩
    · exact fits e here

theorem patch_spec (mem : f ∈ file.functions) (coroutine : f.coroutine)
    (stages : ∀ st ∈ ss, st.aw ∈ f.decl.awaits) :
    ∃ edits, f.patch verbose (file.tokens f.file) ss = some edits ∧ edits ≠ [] ∧
      ∀ e ∈ edits, e.off ≤ (file.contents e.file).length ∧ e.text ≠ "" := by
  obtain ⟨rest, patched, fits⟩ := file.patchStages_spec verbose mem stages 1
  refine ⟨_, by rw [SourceFunction.patch, patched, Option.map_some], List.cons_ne_nil _ _, ?_⟩
  intro e here
  rcases List.mem_cons.mp here with rfl | here
  · exact ⟨file.inside _ _ (file.brace f mem coroutine), append_newline_ne _⟩
  · exact fits e here

end SourceFile

end Valor.Valet
