import Std.Data.String.ToNat
import Valor.Valet.Text

/-! A file of coroutines whose `co_await`s are statements of blocks: what `rewrite` makes of
its text. -/
namespace Valor.Valet

open Edits

/-! ## What comes out -/

/-- A piece of the output: white space and tokens of the source, and what is put between
them. An entry of the jump table is the distance of a label from label 0. -/
inductive Item where
  | space (cs : List Char)
  | token (l : Lexeme)
  | promise (ctxType : String)
  | dispatch (labels : Nat) (table : List Nat)
  | note (what : String)
  | label (n : Nat)
  | save (n : Nat) (vars : List String)
  | load (vars : List String)
  | line (n : Nat) (what : String)

def labelName (n : Nat) : String := "_valet_s" ++ toString n

def distance (n : Nat) : String :=
  if n = 0 then "0" else "(char*)&&" ++ labelName n ++ " - (char*)&&" ++ labelName 0

/-- The jump to the label of the stage that is asked for. -/
def dispatchText (labels : Nat) (table : List Nat) : String :=
  "if (auto _valet_st = _valet_p->stage()) \x7b\n" ++
  "    assert(_valet_st <= " ++ toString labels ++ ");\n" ++
  "    // std::cerr << \"k: to stage \" << _valet_st << '\\n';\n" ++
  "    static ssize_t _valet_stages[] = \x7b" ++ ", ".intercalate (table.map distance) ++ "\x7d;\n" ++
  "    goto *(void*)((char*)&&_valet_s0 + _valet_stages[_valet_st]);\n\x7d"

namespace Item

def text (verbose : Bool) : Item → String
  | space cs => String.ofList cs
  | token l => String.ofList l.text
  | promise ctxType => (if verbose then "// Valet preamble\n" else "") ++
      "\nauto _valet_p = co_await valor::" ++ ctxType ++ "::get_promise\x7b\x7d;\n"
  | dispatch labels table => dispatchText labels table
  | note what => if verbose then "\n// Valet stage " ++ what else ""
  | label n => "\n" ++ labelName n ++ ":"
  | save n vars => "\n_valet_p->save(" ++ ", ".intercalate (toString n :: vars) ++ ");"
  | load vars => "\n_valet_p->load(" ++ ", ".intercalate vars ++ ");"
  | line n what =>
      "\n#line " ++ toString n ++ (if verbose then " // End of Valet " ++ what else "") ++ "\n"

theorem text_space (verbose : Bool) (cs : List Char) :
    (space cs).text verbose = String.ofList cs := rfl

theorem text_token (verbose : Bool) (l : Lexeme) :
    (token l).text verbose = String.ofList l.text := rfl

theorem text_promise (verbose : Bool) (ctxType : String) : (promise ctxType).text verbose =
    (if verbose then "// Valet preamble\n" else "") ++
      "\nauto _valet_p = co_await valor::" ++ ctxType ++ "::get_promise\x7b\x7d;\n" := rfl

theorem text_dispatch (verbose : Bool) (labels : Nat) (table : List Nat) :
    (dispatch labels table).text verbose = dispatchText labels table := rfl

theorem text_note (verbose : Bool) (what : String) :
    (note what).text verbose = if verbose then "\n// Valet stage " ++ what else "" := rfl

theorem text_label (verbose : Bool) (n : Nat) :
    (label n).text verbose = "\n" ++ labelName n ++ ":" := rfl

theorem text_save (verbose : Bool) (n : Nat) (vars : List String) : (save n vars).text verbose =
    "\n_valet_p->save(" ++ ", ".intercalate (toString n :: vars) ++ ");" := rfl

theorem text_load (verbose : Bool) (vars : List String) :
    (load vars).text verbose = "\n_valet_p->load(" ++ ", ".intercalate vars ++ ");" := rfl

theorem text_line (verbose : Bool) (n : Nat) (what : String) : (line n what).text verbose =
    "\n#line " ++ toString n ++ (if verbose then " // End of Valet " ++ what else "") ++ "\n" := rfl

/-- A token as it is in the source. -/
def lexeme (l : Lexeme) : List Item := [space l.gap, token l]

def labels (items : List Item) : List Nat :=
  items.filterMap fun | label n => some n | _ => none

def tables (items : List Item) : List (List Nat) :=
  items.filterMap fun | dispatch _ table => some table | _ => none

def saves (items : List Item) : List (Nat × List String) :=
  items.filterMap fun | save n vars => some (n, vars) | _ => none

def loads (items : List Item) : List (List String) :=
  items.filterMap fun | load vars => some vars | _ => none

def tokens (items : List Item) : List Lexeme :=
  items.filterMap fun | token l => some l | _ => none

end Item

def textOfItems (verbose : Bool) (items : List Item) : List Char :=
  items.flatMap fun item => (item.text verbose).toList

theorem intercalate_cons (s : String) (ts : List String) :
    ", ".intercalate (s :: ts) = s ++ String.join (ts.map fun t => ", " ++ t) := by
  induction ts generalizing s with
  | nil => simp
  | cons t ts ih =>
    rw [String.intercalate_cons_cons, ih, List.map_cons, String.join_cons]
    simp only [String.append_assoc]

theorem varList_eq (vars : List VarDecl) :
    varList vars = String.join ((vars.map VarDecl.name).map fun t => ", " ++ t) := by
  have fold : ∀ acc, vars.foldl (fun s v => s ++ ", " ++ v.name) acc =
      acc ++ String.join ((vars.map VarDecl.name).map fun t => ", " ++ t) := by
    induction vars with
    | nil => simp
    | cons v vars ih =>
      intro acc
      rw [List.foldl_cons, ih, List.map_cons, List.map_cons, String.join_cons]
      simp only [String.append_assoc]
  simpa [varList] using fold ""

theorem varsStrip_eq (vars : List VarDecl) :
    varsStrip vars = ", ".intercalate (vars.map VarDecl.name) := by
  cases vars with
  | nil => rfl
  | cons v vars =>
    have comma : varList (v :: vars) = ", " ++ ", ".intercalate ((v :: vars).map VarDecl.name) := by
      rw [varList_eq, List.map_cons, List.map_cons, intercalate_cons, String.join_cons,
        String.append_assoc]
    rw [varsStrip, comma, String.toList_append, show ", ".toList = [',', ' '] from rfl,
      List.cons_append, List.cons_append, List.nil_append, List.drop_succ_cons, List.drop_succ_cons,
      List.drop_zero, String.ofList_toList]

theorem save_text (verbose : Bool) (n : Nat) (vars : List VarDecl) (lineno : Nat) :
    (Emit.save verbose n (varList vars) lineno).toList = textOfItems verbose
      [.note "save", .save n (vars.map VarDecl.name), .line lineno "save"] := by
  have comment : (" // End of Valet save" : String) = " // End of Valet " ++ "save" := by simp
  have title : ("\n// Valet stage save" : String) = "\n// Valet stage " ++ "save" := by simp
  have end' : (");\n#line " : String) = ");" ++ "\n#line " := by simp
  simp only [-String.reduceAppend, Emit.save, varList_eq, textOfItems, Item.text_note, Item.text_save,
    Item.text_line, intercalate_cons, comment, title, end',
    List.flatMap_cons, List.flatMap_nil, String.toList_append, List.append_assoc, List.append_nil]

theorem load_text (verbose : Bool) (n : Nat) (vars : List VarDecl) (lineno : Nat) :
    (Emit.load verbose n (varsStrip vars) lineno).toList = textOfItems verbose
      [.note "load", .label n, .load (vars.map VarDecl.name), .line lineno "load"] := by
  have comment : (" // End of Valet load" : String) = " // End of Valet " ++ "load" := by simp
  have title : ("\n// Valet stage load" : String) = "\n// Valet stage " ++ "load" := by simp
  have label : ("\n_valet_s" : String) = "\n" ++ "_valet_s" := by simp
  have call : (":\n_valet_p->load(" : String) = ":" ++ "\n_valet_p->load(" := by simp
  have end' : (");\n#line " : String) = ");" ++ "\n#line " := by simp
  simp only [-String.reduceAppend, Emit.load, varsStrip_eq, textOfItems, Item.text_note, Item.text_label,
    Item.text_load, Item.text_line, labelName, comment, title, label, call, end',
    List.flatMap_cons, List.flatMap_nil, String.toList_append, List.append_assoc, List.append_nil]

theorem entry_text (n : Nat) : Emit.jumpTableEntry (n + 1) = ", " ++ distance (n + 1) := by
  have gap : (", (char*)&&_valet_s" : String) = ", " ++ "(char*)&&" ++ "_valet_s" := by simp
  have base : (" - (char*)&&_valet_s0" : String) = " - (char*)&&" ++ labelName 0 := by
    decide +kernel
  delta Emit.jumpTableEntry distance
  rw [if_neg (Nat.succ_ne_zero n), gap, base]
  delta labelName
  simp only [-String.reduceAppend, String.append_assoc]

theorem jumpTable_text (labels : Nat) :
    "0" ++ String.join ((List.range' 1 labels).map Emit.jumpTableEntry) =
      ", ".intercalate ((List.range (labels + 1)).map distance) := by
  have entries : (List.range' 1 labels).map Emit.jumpTableEntry =
      (((List.range labels).map Nat.succ).map distance).map fun t => ", " ++ t := by
    rw [List.range'_eq_map_range]
    simp only [List.map_map]
    apply List.map_congr_left
    intro n _
    rw [Function.comp_apply, Nat.add_comm 1, entry_text]
    rfl
  rw [List.range_succ_eq_map, List.map_cons, intercalate_cons, entries]
  rfl

theorem preamble_text (verbose : Bool) (ctxType : String) (labels lineno : Nat) :
    (Emit.preamble verbose ctxType labels lineno).toList = textOfItems verbose
      [.promise ctxType, .dispatch labels (List.range (labels + 1)), .label 0,
        .line lineno "preamble"] := by
  have table : ("    static ssize_t _valet_stages[] = \x7b0" : String) =
      "    static ssize_t _valet_stages[] = \x7b" ++ "0" := by simp
  have end' : ("\x7d\n_valet_s0:\n#line " : String) =
      "\x7d" ++ "\n" ++ labelName 0 ++ ":" ++ "\n#line " := by decide +kernel
  have goto : ("    goto *(void*)((char*)&&_valet_s0 + _valet_stages[_valet_st]);\n\x7d" : String) =
    "    goto *(void*)((char*)&&_valet_s0 + _valet_stages[_valet_st]);\n" ++ "\x7d" := by simp
  have comment : (" // End of Valet preamble" : String) = " // End of Valet " ++ "preamble" := by
    simp
  delta Emit.preamble
  rw [table, end', comment]
  simp only [textOfItems, Item.text_promise, Item.text_dispatch, Item.text_label, Item.text_line,
     List.flatMap_cons, List.flatMap_nil, List.append_nil]
  delta dispatchText
  rw [goto, ← jumpTable_text]
  simp only [-String.reduceAppend, String.toList_append, List.append_assoc]

/-! ## The source -/

/-- A `co_await`, up to its semicolon, and the text behind it. -/
structure AwaitText where
  stage : Stage
  coawait : Lexeme
  operand : List Lexeme
  last : Lexeme
  semi : Lexeme
  isSemi : semi.semi = true
  behind : List Lexeme

/-- A coroutine, with the text before it. -/
structure CoroutineText where
  returnType : String
  decl : FunctionDecl
  head : List Lexeme
  brace : Lexeme
  start : List Lexeme
  awaits : List AwaitText
  some' : awaits ≠ []
  found : decl.awaits = awaits.map fun a => a.stage.aw

structure Layout where
  coroutines : List CoroutineText
  tail : List Lexeme

namespace AwaitText

def lexemes (a : AwaitText) : List Lexeme :=
  a.coawait :: (a.operand ++ a.last :: a.semi :: a.behind)

def names (a : AwaitText) : List String := a.stage.vars.map VarDecl.name

/-- `getBeginLoc()` behind the text `before`. -/
def begin' (a : AwaitText) (before : List Char) : Token := a.coawait.token before

def end' (a : AwaitText) (before : List Char) : Token :=
  a.last.token (before ++ textOf (a.coawait :: a.operand))

def semiToken (a : AwaitText) (before : List Char) : Token :=
  a.semi.token (before ++ textOf (a.coawait :: (a.operand ++ [a.last])))

/-- The `n`-th `co_await` in the output. -/
def output (a : AwaitText) (n : Nat) (before : List Char) : List Item :=
  [.space a.coawait.gap, .note "save", .save n a.names, .line (a.begin' before).line "save",
    .token a.coawait] ++ (a.operand ++ [a.last, a.semi]).flatMap Item.lexeme ++
  [.note "load", .label n, .load a.names, .line (a.semiToken before).line "load"] ++
  a.behind.flatMap Item.lexeme

end AwaitText

def awaitsText (as : List AwaitText) : List Lexeme := as.flatMap AwaitText.lexemes

def awaitsOutput : Nat → List Char → List AwaitText → List Item
  | _, _, [] => []
  | n, before, a :: as =>
    a.output n before ++ awaitsOutput (n + 1) (before ++ textOf a.lexemes) as

/-- Where the `co_await`s are, by number. -/
def awaitPlaces : List Char → List AwaitText → List (Nat × Token × Token)
  | _, [] => []
  | before, a :: as =>
    (a.stage.aw.at', a.begin' before, a.end' before) :: awaitPlaces (before ++ textOf a.lexemes) as

namespace CoroutineText

def lexemes (c : CoroutineText) : List Lexeme :=
  c.head ++ c.brace :: (c.start ++ awaitsText c.awaits)

def stages (c : CoroutineText) : List Stage := c.awaits.map AwaitText.stage

def braceToken (c : CoroutineText) (before : List Char) : Token :=
  c.brace.token (before ++ textOf c.head)

/-- The text in front of the first `co_await`. -/
def opening (c : CoroutineText) (before : List Char) : List Char :=
  before ++ textOf (c.head ++ c.brace :: c.start)

def places (c : CoroutineText) (before : List Char) : List (Nat × Token × Token) :=
  awaitPlaces (c.opening before) c.awaits

def function (c : CoroutineText) (before : List Char) : SourceFunction where
  decl := c.decl
  coroutine := true
  valorSkip := false
  returnType := c.returnType
  file := 1
  brace := c.braceToken before
  begins n := (((c.places before).find? fun p => p.1 = n).map fun p => p.2.1).getD
    (c.braceToken before)
  ends n := (((c.places before).find? fun p => p.1 = n).map fun p => p.2.2).getD
    (c.braceToken before)

def output (c : CoroutineText) (before : List Char) : List Item :=
  (c.head ++ [c.brace]).flatMap Item.lexeme ++
  [.promise c.returnType, .dispatch c.awaits.length (List.range (c.awaits.length + 1)), .label 0,
    .line (c.braceToken before).line "preamble"] ++
  c.start.flatMap Item.lexeme ++ awaitsOutput 1 (c.opening before) c.awaits

end CoroutineText

def coroutinesText (cs : List CoroutineText) : List Lexeme := cs.flatMap CoroutineText.lexemes

def coroutinesFunctions : List Char → List CoroutineText → List SourceFunction
  | _, [] => []
  | before, c :: cs => c.function before :: coroutinesFunctions (before ++ textOf c.lexemes) cs

def coroutinesOutput : List Char → List CoroutineText → List Item
  | _, [] => []
  | before, c :: cs => c.output before ++ coroutinesOutput (before ++ textOf c.lexemes) cs

namespace Layout

def lexemes (l : Layout) : List Lexeme := coroutinesText l.coroutines ++ l.tail

/-- The stages of all functions, in the order of the text. -/
def stages (l : Layout) : Stages := l.coroutines.zipIdx.map fun p => (p.2, p.1.stages)

def output (l : Layout) : List Item :=
  coroutinesOutput [] l.coroutines ++ l.tail.flatMap Item.lexeme

end Layout

/-! ## Where things are -/

theorem awaitsText_append (as as' : List AwaitText) :
    awaitsText (as ++ as') = awaitsText as ++ awaitsText as' := List.flatMap_append

theorem awaitsText_cons (a : AwaitText) (as : List AwaitText) :
    awaitsText (a :: as) = a.lexemes ++ awaitsText as := List.flatMap_cons

theorem awaitPlaces_append (before : List Char) (as as' : List AwaitText) :
    awaitPlaces before (as ++ as') =
      awaitPlaces before as ++ awaitPlaces (before ++ textOf (awaitsText as)) as' := by
  induction as generalizing before with
  | nil => simp [awaitPlaces, awaitsText]
  | cons a as ih => simp [awaitPlaces, awaitsText_cons, ih]

theorem awaitPlaces_fst (before : List Char) (as : List AwaitText) :
    (awaitPlaces before as).map Prod.fst = as.map fun a => a.stage.aw.at' := by
  induction as generalizing before with
  | nil => rfl
  | cons a as ih => simp [awaitPlaces, ih]

theorem coroutinesText_cons (c : CoroutineText) (cs : List CoroutineText) :
    coroutinesText (c :: cs) = c.lexemes ++ coroutinesText cs := List.flatMap_cons

theorem coroutinesText_append (cs cs' : List CoroutineText) :
    coroutinesText (cs ++ cs') = coroutinesText cs ++ coroutinesText cs' := List.flatMap_append

namespace AwaitText

variable {G H : List Lexeme} (a : AwaitText)

theorem begin_mem : a.begin' (textOf G) ∈ tokensOf [] (G ++ a.lexemes ++ H) := by
  have h := token_mem [] G (a.operand ++ a.last :: a.semi :: a.behind ++ H) a.coawait
  simpa [begin', lexemes] using h

/-- The search for the semicolon finds the one of the statement. -/
theorem semiAfter_end : semiAfter (tokensOf [] (G ++ a.lexemes ++ H)) (a.end' (textOf G)).offset =
    some (a.semiToken (textOf G)) := by
  have h := semiAfter_next (G ++ a.coawait :: a.operand) (a.behind ++ H) a.last a.isSemi
  simpa [end', semiToken, lexemes] using h

end AwaitText

namespace CoroutineText

variable (c : CoroutineText) (before : List Char)

theorem numbers_nodup : ((c.places before).map Prod.fst).Nodup := by
  have nodup : (c.decl.awaits.map CoawaitExpr.at').Nodup :=
    (c.decl.body.findAwaits_spans c.decl.start [0] false).nodup
  rw [places, awaitPlaces_fst]
  rwa [c.found, List.map_map] at nodup

theorem function_places {p : Nat × Token × Token} (mem : p ∈ c.places before) :
    (c.function before).begins p.1 = p.2.1 ∧ (c.function before).ends p.1 = p.2.2 := by
  have found := find_key (c.numbers_nodup before) mem
  simp [function, found]

theorem split {as bs : List AwaitText} {a : AwaitText} (h : c.awaits = as ++ a :: bs) :
    (a.stage.aw.at', a.begin' (c.opening before ++ textOf (awaitsText as)),
      a.end' (c.opening before ++ textOf (awaitsText as))) ∈ c.places before := by
  rw [places, h, awaitPlaces_append]
  exact List.mem_append_right _ List.mem_cons_self

end CoroutineText

end Valor.Valet
