import Mathlib.Data.List.DropRight
import Valor.Valet.Files

/-! The option `-v`. What it adds to the rewritten text are comments and the blank lines they
leave, and only in what Valet inserts. -/
namespace Valor.Valet

open Edits

/-! ## Code without comments -/

/-- A line up to its comment. -/
def uncommented : List Char → List Char
  | '/' :: '/' :: _ => []
  | c :: cs => c :: uncommented cs
  | [] => []

/-- What a line says, if it says anything. -/
def codeLine (line : List Char) : List (List Char) :=
  let code := (uncommented line).rdropWhile (· = ' ')
  if code = [] then [] else [code]

/-- The lines of a text that say something; `line` is what the first has begun with. -/
def codeLines (line : List Char) : List Char → List (List Char)
  | [] => codeLine line
  | c :: cs => if c = '\n' then codeLine line ++ codeLines [] cs else codeLines (line ++ [c]) cs

example : codeLines [] "\n// Valet stage load\n_valet_s1:\n#line 9 // End of Valet load\n".toList =
    ["_valet_s1:".toList, "#line 9".toList] := by decide

/-- A text between line ends says what it says anywhere. -/
theorem codeLines_append (line text cs : List Char) :
    codeLines line (text ++ '\n' :: cs) = codeLines line (text ++ ['\n']) ++ codeLines [] cs := by
  induction text generalizing line with
  | nil => simp only [List.nil_append, codeLines, if_true, List.append_assoc]; rfl
  | cons c text ih =>
    simp only [List.cons_append, codeLines]
    split
    · rw [ih, List.append_assoc]
    · exact ih _

theorem codeLines_line (line text : List Char) (one : '\n' ∉ text) :
    codeLines line (text ++ ['\n']) = codeLine (line ++ text) := by
  induction text generalizing line with
  | nil => simp [codeLines, codeLine, uncommented, List.rdropWhile]
  | cons c text ih =>
    simp only [List.mem_cons, not_or] at one
    rw [List.cons_append, codeLines, if_neg (Ne.symm one.1), ih _ one.2, List.append_assoc]
    rfl

theorem uncommented_append {as : List Char} (plain : '/' ∉ as) (cs : List Char) :
    uncommented (as ++ cs) = as ++ uncommented cs := by
  induction as with
  | nil => rfl
  | cons a as ih =>
    simp only [List.mem_cons, not_or] at plain
    rw [List.cons_append, uncommented, ih plain.2, List.cons_append]
    exact fun _ slash _ => plain.1 slash.symm

/-- A comment behind the code of a line. -/
theorem codeLine_comment {code : List Char} (plain : '/' ∉ code) (what : List Char) :
    codeLine (code ++ " //".toList ++ what) = codeLine code := by
  have cut : uncommented (code ++ " //".toList ++ what) = code ++ [' '] := by
    rw [List.append_assoc, uncommented_append plain]
    rfl
  have whole : uncommented code = code := by
    have same := uncommented_append plain []
    rwa [List.append_nil, uncommented, List.append_nil] at same
  unfold codeLine
  rw [cut, whole, List.rdropWhile_concat_pos _ _ _ rfl]

/-! ## What is inserted -/

/-- Whole lines that say the same. -/
structure SameCode (plain verbose : List Char) : Prop where
  code : codeLines [] plain = codeLines [] verbose
  ends : ['\n'] <:+ plain ∧ ['\n'] <:+ verbose

def lineText (lineno : Nat) : List Char := "#line ".toList ++ (toString lineno).toList

theorem lineText_plain {lineno : Nat} {c : Char} (digit : c.isDigit = false)
    (outside : c ∉ "#line ".toList) : c ∉ lineText lineno := by
  intro mem
  rcases List.mem_append.mp mem with word | number
  · exact outside word
  · rw [Nat.toString_eq_repr, Nat.toList_repr] at number
    have isDigit := Nat.isDigit_of_mem_toDigits (by decide) (by decide) number
    rw [digit] at isDigit
    cases isDigit

/-- The three texts have one shape: a comment, code from the next line on, and a `#line`
directive with a comment behind it. -/
theorem sameCode_of_shape (comment what : List Char)
    (silent : codeLines [] (comment ++ ['\n']) = []) (one : '\n' ∉ what) (code : List Char)
    (lineno : Nat) :
    SameCode ('\n' :: code ++ '\n' :: lineText lineno ++ ['\n'])
      (comment ++ '\n' :: code ++ '\n' :: (lineText lineno ++ " //".toList ++ what) ++ ['\n']) := by
  have slash : '/' ∉ lineText lineno := lineText_plain (by decide) (by decide)
  have newline : '\n' ∉ lineText lineno := lineText_plain (by decide) (by decide)
  have newline' : '\n' ∉ lineText lineno ++ " //".toList ++ what := by
    simp only [List.mem_append, not_or]
    exact ⟨⟨newline, by decide⟩, one⟩
  have last : codeLines [] (lineText lineno ++ " //".toList ++ what ++ ['\n']) =
      codeLines [] (lineText lineno ++ ['\n']) := by
    rw [codeLines_line _ _ newline', codeLines_line _ _ newline, List.nil_append, List.nil_append]
    exact codeLine_comment slash what
  let behind : List Char := lineText lineno ++ " //".toList ++ what ++ ['\n']
  have inner : ∀ cs, codeLines [] (code ++ '\n' :: cs) =
      codeLines [] (code ++ ['\n']) ++ codeLines [] cs := codeLines_append [] code
  have outer : ∀ cs, codeLines [] (comment ++ '\n' :: cs) = codeLines [] cs := by
    intro cs
    rw [codeLines_append, silent, List.nil_append]
  constructor
  · calc codeLines [] ('\n' :: code ++ '\n' :: lineText lineno ++ ['\n'])
      _ = codeLines [] (code ++ '\n' :: (lineText lineno ++ ['\n'])) := by
        rw [List.append_assoc, List.cons_append, List.cons_append]
        rfl
      _ = codeLines [] (code ++ ['\n']) ++ codeLines [] behind := by rw [inner, last]
      _ = codeLines [] (comment ++ '\n' :: (code ++ '\n' :: behind)) := by rw [outer, inner behind]
      _ = _ := by simp only [behind, List.append_assoc, List.cons_append]
  · exact ⟨List.suffix_append _ _, List.suffix_append _ _⟩

theorem save_same (n : Nat) (varlist : String) (lineno : Nat) :
    SameCode (Emit.save false n varlist lineno).toList
      (Emit.save true n varlist lineno).toList := by
  have same := sameCode_of_shape "\n// Valet stage save".toList " End of Valet save".toList
    (by decide) (by decide) ("_valet_p->save(" ++ toString n ++ varlist ++ ");").toList lineno
  simpa [Emit.save, lineText] using same

theorem load_same (n : Nat) (varlist : String) (lineno : Nat) :
    SameCode (Emit.load false n varlist lineno).toList
      (Emit.load true n varlist lineno).toList := by
  have same := sameCode_of_shape "\n// Valet stage load".toList " End of Valet load".toList
    (by decide) (by decide)
    ("_valet_s" ++ toString n ++ ":\n_valet_p->load(" ++ varlist ++ ");").toList lineno
  simpa [Emit.load, lineText] using same

theorem preamble_same (ctxType : String) (labels lineno : Nat) :
    SameCode (Emit.preamble false ctxType labels lineno).toList
      (Emit.preamble true ctxType labels lineno).toList := by
  have begins : ("\nauto _valet_p = co_await valor::" : String) =
      "\n" ++ "auto _valet_p = co_await valor::" := by simp
  have end' : ("\x7d\n_valet_s0:\n#line " : String) = "\x7d\n_valet_s0:" ++ "\n" ++ "#line " := by
    simp
  have behind : (" // End of Valet preamble" : String) = " //" ++ " End of Valet preamble" := by
    simp
  have same := sameCode_of_shape "// Valet preamble\n".toList " End of Valet preamble".toList
    (by decide) (by decide)
    ("auto _valet_p = co_await valor::" ++ ctxType ++ "::get_promise\x7b\x7d;\n" ++
      "if (auto _valet_st = _valet_p->stage()) \x7b\n" ++
      "    assert(_valet_st <= " ++ toString labels ++ ");\n" ++
      "    // std::cerr << \"k: to stage \" << _valet_st << '\\n';\n" ++
      "    static ssize_t _valet_stages[] = \x7b0" ++
      String.join ((List.range' 1 labels).map Emit.jumpTableEntry) ++ "\x7d;\n" ++
      "    goto *(void*)((char*)&&_valet_s0 + _valet_stages[_valet_st]);\n" ++
      "\x7d\n_valet_s0:").toList lineno
  have newline : "\n".toList = ['\n'] := rfl
  delta Emit.preamble
  rw [begins, end', behind]
  simpa only [-String.reduceAppend, lineText, String.toList_append, newline, List.append_assoc,
    List.cons_append, List.nil_append, Bool.false_eq_true, if_false, if_true, String.toList_empty]
    using same

/-! ## What is edited -/

/-- Insertions that say the same at each place. -/
structure SameInsertions (ins ins' : Nat → List Char) : Prop where
  code : ∀ off, codeLines [] (ins off) = codeLines [] (ins' off)
  ends : ∀ off, ins off = [] ∧ ins' off = [] ∨ ['\n'] <:+ ins off ∧ ['\n'] <:+ ins' off

/-- Both texts are the original with whole lines inserted, which say the same. -/
def AddsComments (orig plain verbose : List Char) : Prop :=
  ∃ ins ins', plain = weave ins orig ∧ verbose = weave ins' orig ∧ SameInsertions ins ins'

structure SameEdit (e e' : Edit) : Prop where
  file : e'.file = e.file
  off : e'.off = e.off
  code : SameCode e.text.toList e'.text.toList

namespace Verbose

theorem rel_bind {A A' B B' : Type} {R : A → A' → Prop} {S : B → B' → Prop} {x : Option A}
    {x' : Option A'} {f : A → Option B} {f' : A' → Option B'} (first : Option.Rel R x x')
    (rest : ∀ a a', R a a' → Option.Rel S (f a) (f' a')) :
    Option.Rel S (x.bind f) (x'.bind f') := by
  cases first with
  | none => exact .none
  | some h => exact rest _ _ h

theorem codeLines_ends {text : List Char} (ends : ['\n'] <:+ text) (line cs : List Char) :
    codeLines line (text ++ cs) = codeLines line text ++ codeLines [] cs := by
  obtain ⟨front, rfl⟩ := ends
  rw [List.append_assoc]
  exact codeLines_append line front cs

theorem sameInsertions_update {ins ins' : Nat → List Char} (same : SameInsertions ins ins')
    {text text' : List Char} (code : SameCode text text') (off : Nat) :
    SameInsertions (Function.update ins off (ins off ++ text))
      (Function.update ins' off (ins' off ++ text')) := by
  constructor
  · intro i
    by_cases h : i = off
    · subst h
      rw [Function.update_self, Function.update_self]
      rcases same.ends i with ⟨none, none'⟩ | ⟨ends, ends'⟩
      · rw [none, none', List.nil_append, List.nil_append]
        exact code.code
      · rw [codeLines_ends ends, codeLines_ends ends', same.code, code.code]
    · rw [Function.update_of_ne h, Function.update_of_ne h]
      exact same.code i
  · intro i
    by_cases h : i = off
    · subst h
      rw [Function.update_self, Function.update_self]
      exact .inr ⟨code.ends.1.trans (List.suffix_append _ _),
        code.ends.2.trans (List.suffix_append _ _)⟩
    · rw [Function.update_of_ne h, Function.update_of_ne h]
      exact same.ends i

section edits

variable {f : SourceFunction} {tokens : List Token}

theorem patchStages_same (n : Nat) (ss : List Stage) :
    Option.Rel (List.Forall₂ SameEdit) (f.patchStages false tokens n ss)
      (f.patchStages true tokens n ss) := by
  induction ss generalizing n with
  | nil => exact .some .nil
  | cons st ss ih =>
    simp only [SourceFunction.patchStages, SourceFunction.patchStage, Option.bind_eq_bind]
    cases semiAfter tokens (f.ends st.aw.at').offset with
    | none => exact .none
    | some semi =>
      apply rel_bind (R := List.Forall₂ SameEdit)
      · exact .some (.cons ⟨rfl, rfl, save_same _ _ _⟩ (.cons ⟨rfl, rfl, load_same _ _ _⟩ .nil))
      · intro edits edits' same
        apply rel_bind (ih (n + 1))
        intro rest rest' same'
        exact .some (List.rel_append same same')

theorem sameEdit_token (tok : Token) {text text' : String}
    (code : SameCode text.toList text'.toList) :
    SameEdit (f.insertTextAfterToken tok text) (f.insertTextAfterToken tok text') :=
  ⟨rfl, rfl, code⟩

theorem patch_same (ss : List Stage) :
    Option.Rel (List.Forall₂ SameEdit) (f.patch false tokens ss) (f.patch true tokens ss) := by
  have stages : Option.Rel (List.Forall₂ SameEdit) (f.patchStages false tokens 1 ss)
      (f.patchStages true tokens 1 ss) := patchStages_same 1 ss
  unfold SourceFunction.patch
  generalize f.patchStages false tokens 1 ss = plain, f.patchStages true tokens 1 ss = verbose
    at stages ⊢
  cases stages with
  | none => exact .none
  | some same =>
    exact .some (.cons (sameEdit_token f.brace (preamble_same _ _ _)) same)

theorem edits_same (v v' : Valet) (verbose : v.verbose = false) (verbose' : v'.verbose = true)
    (skip : v'.skip = v.skip) (file : SourceFile) (stages : Stages) :
    Option.Rel (List.Forall₂ SameEdit) (v.edits file stages) (v'.edits file stages) := by
  induction stages with
  | nil => exact .some .nil
  | cons entry stages ih =>
    obtain ⟨i, ss⟩ := entry
    simp only [edits, verbose, verbose', skip, Option.bind_eq_bind]
    cases (file.matched v.skip)[i]? with
    | none => exact .none
    | some f =>
      apply rel_bind (patch_same ss)
      intro own own' same
      apply rel_bind ih
      intro rest rest' same'
      exact .some (List.rel_append same same')

theorem file_edits_same (file : SourceFile) :
    Option.Rel (List.Forall₂ SameEdit) (file.edits false) (file.edits true) := by
  let plain : Valet := ⟨false, [], file.skipped, fun _ => none⟩
  let verbose : Valet := ⟨true, [], file.skipped, fun _ => none⟩
  have same : Option.Rel (List.Forall₂ SameEdit) (plain.edits file (plain.runMatches file).stages)
      (verbose.edits file (plain.runMatches file).stages) :=
    edits_same plain verbose rfl rfl rfl file _
  exact same

end edits

/-! ## What is written -/

/-- A buffer made for one of the files, in both objects. -/
def SameBuffer (files : List SourceFile) (fid : Nat) (b b' : Buffer Char) : Prop :=
  ∃ file ∈ files, ∃ ins ins', Weaves (file.contents fid) ins b ∧
    Weaves (file.contents fid) ins' b' ∧ SameInsertions ins ins'

def SameBuffers (files : List SourceFile) (buffers buffers' : Buffers) : Prop :=
  ∀ fid, Option.Rel (SameBuffer files fid) (buffers fid) (buffers' fid)

variable {files : List SourceFile} {file : SourceFile} {buffers buffers' : Buffers}

theorem sameInsertions_refl (ins : Nat → List Char) (none : ∀ off, ins off = []) :
    SameInsertions ins ins :=
  ⟨fun _ => rfl, fun off => .inl ⟨none off, none off⟩⟩

/-- Both objects have a buffer for the file, or make one. -/
theorem sameBuffer_getD (same : SameBuffers files buffers buffers') (mem : file ∈ files)
    (fid : Nat) : SameBuffer files fid ((buffers fid).getD (Buffer.new (file.contents fid)))
      ((buffers' fid).getD (Buffer.new (file.contents fid))) := by
  have here := same fid
  generalize buffers fid = b, buffers' fid = b' at here ⊢
  cases here with
  | none =>
    exact ⟨file, mem, _, _, Weaves.new _, Weaves.new _, sameInsertions_refl _ fun _ => rfl⟩
  | some h => exact h

/-- An edit is past the end in both objects or in none. -/
theorem insertAfter_same {fid : Nat} {b b' : Buffer Char} {text text' : List Char}
    (same : SameBuffer files fid b b') (code : SameCode text text') (off : Nat) :
    Option.Rel (SameBuffer files fid) (b.insertAfter off text) (b'.insertAfter off text') := by
  obtain ⟨file, mem, ins, ins', weaves, weaves', insertions⟩ := same
  by_cases inside : off ≤ (file.contents fid).length
  · obtain ⟨c, step, woven⟩ := weaves.insertAfter text inside
    obtain ⟨c', step', woven'⟩ := weaves'.insertAfter text' inside
    rw [step, step']
    exact .some ⟨file, mem, _, _, woven, woven', sameInsertions_update insertions code off⟩
  · have outside := Nat.lt_of_not_le inside
    rw [weaves.insertAfter_outside text outside, weaves'.insertAfter_outside text' outside]
    exact .none

theorem insertText_same (same : SameBuffers files buffers buffers') (mem : file ∈ files)
    {e e' : Edit} (edit : SameEdit e e') :
    Option.Rel (SameBuffers files) (insertText file.contents buffers e)
      (insertText file.contents buffers' e') := by
  have inserted := insertAfter_same (sameBuffer_getD same mem e.file) edit.code e.off
  simp only [insertText, edit.file, edit.off]
  generalize Buffer.insertAfter _ e.off e.text.toList = b,
    Buffer.insertAfter _ e.off e'.text.toList = b' at inserted ⊢
  cases inserted with
  | none => exact .none
  | some h =>
    apply Option.Rel.some
    intro fid
    simp only
    by_cases here : fid = e.file
    · subst here
      rw [Function.update_self, Function.update_self]
      exact .some h
    · rw [Function.update_of_ne here, Function.update_of_ne here]
      exact same fid

/-- The run of the edits: by induction on the two lists side by side. -/
theorem foldlM_same (mem : file ∈ files) {edits edits' : List Edit}
    (each : List.Forall₂ SameEdit edits edits') (same : SameBuffers files buffers buffers') :
    Option.Rel (SameBuffers files) (edits.foldlM (insertText file.contents) buffers)
      (edits'.foldlM (insertText file.contents) buffers') := by
  induction each generalizing buffers buffers' with
  | nil => exact .some same
  | cons edit _ ih =>
    simp only [List.foldlM_cons, Option.bind_eq_bind]
    exact rel_bind (insertText_same same mem edit) fun _ _ next => ih next

/-- An object without the option and one with it, after the same files. -/
structure Beside (files : List SourceFile) (v v' : Valet) : Prop where
  verbose : v.verbose = false ∧ v'.verbose = true
  cleared : v.stages = [] ∧ v'.stages = []
  buffers : SameBuffers files v.buffers v'.buffers

/-- What is written for each file number is the text of a source, with the same insertions up
to comments. -/
def SameOutput (files : List SourceFile) (out out' : Output) : Prop :=
  ∀ fid, Option.Rel (fun plain verbose => ∃ file ∈ files,
    AddsComments (file.contents fid) plain verbose) (out fid) (out' fid)

theorem sameOutput (same : SameBuffers files buffers buffers') : SameOutput files
    (fun fid => (buffers fid).map Buffer.text) fun fid => (buffers' fid).map Buffer.text := by
  intro fid
  have here := same fid
  simp only
  generalize buffers fid = b, buffers' fid = b' at here ⊢
  cases here with
  | none => exact .none
  | some h =>
    obtain ⟨file, mem, ins, ins', weaves, weaves', insertions⟩ := h
    exact .some ⟨file, mem, ins, ins', weaves.text, weaves'.text, insertions⟩

theorem process_same {v v' : Valet} (beside : Beside files v v') (mem : file ∈ files) :
    Option.Rel (fun r r' => Beside files r.1 r'.1 ∧ SameOutput files r.2 r'.2)
      (v.process file) (v'.process file) := by
  obtain ⟨⟨off, on⟩, ⟨cleared, cleared'⟩, buffers⟩ := beside
  rw [process_spec cleared, process_spec cleared', off, on]
  apply rel_bind (file_edits_same file)
  intro edits edits' each
  have run := foldlM_same mem each buffers
  generalize edits.foldlM (insertText file.contents) v.buffers = after,
    edits'.foldlM (insertText file.contents) v'.buffers = after' at run ⊢
  cases run with
  | none => exact .none
  | some same => exact .some ⟨⟨⟨rfl, rfl⟩, ⟨rfl, rfl⟩, same⟩, sameOutput same⟩

theorem outputs_same {v v' : Valet} (beside : Beside files v v') (rest : List SourceFile)
    (sub : ∀ file ∈ rest, file ∈ files) :
    List.Forall₂ (Option.Rel (SameOutput files)) (v.outputs rest) (v'.outputs rest) := by
  induction rest generalizing v v' with
  | nil => exact .nil
  | cons file rest ih =>
    have first := process_same beside (sub file List.mem_cons_self)
    have later := fun next mem => sub next (List.mem_cons_of_mem file mem)
    simp only [outputs]
    generalize v.process file = r, v'.process file = r' at first ⊢
    cases first with
    | none =>
      apply List.Forall₂.cons .none
      apply List.forall₂_map_left_iff.mpr
      apply List.forall₂_map_right_iff.mpr
      exact List.forall₂_same.mpr fun _ _ => .none
    | some h => exact .cons (.some h.2) (ih h.1 later)

end Verbose

/-- With `-v` every file comes out, or crashes, as without it, and what is written differs
only in comments and blank lines within what is inserted. -/
theorem verbose_adds_comments (files : List SourceFile) :
    List.Forall₂ (Option.Rel (Verbose.SameOutput files)) ((new false).outputs files)
      ((new true).outputs files) :=
  Verbose.outputs_same ⟨⟨rfl, rfl⟩, ⟨rfl, rfl⟩, fun _ => .none⟩ files fun _ mem => mem

end Valor.Valet
