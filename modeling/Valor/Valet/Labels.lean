import Valor.Valet.Layout

/-! The labels, the jump table and the calls that `rewrite` puts into such a file agree, in
whatever order it takes the functions. -/
namespace Valor.Valet

open Edits

theorem textOfItems_append (verbose : Bool) (items items' : List Item) :
    textOfItems verbose (items ++ items') = textOfItems verbose items ++ textOfItems verbose items' :=
  List.flatMap_append

theorem textOfItems_lexemes (verbose : Bool) (ls : List Lexeme) :
    textOfItems verbose (ls.flatMap Item.lexeme) = textOf ls := by
  induction ls with
  | nil => rfl
  | cons l ls ih =>
    have first : textOfItems verbose (Item.lexeme l) = l.chars := by
      simp [textOfItems, Item.lexeme, Item.text_space, Item.text_token, Lexeme.chars]
    rw [List.flatMap_cons, textOfItems_append, first, ih, textOf_cons]

/-- All edits are in the main file. -/
def toEdit (e : Nat × List Char) : Edit := ⟨1, e.1, String.ofList e.2⟩

/-! ## One `co_await` -/

namespace AwaitText

variable (verbose : Bool) (a : AwaitText) (n : Nat) (before : List Char)

def parts : List (Chunk Char) :=
  [.orig a.coawait.gap,
    .ins (Emit.save verbose n (varList a.stage.vars) (a.begin' before).line).toList,
    .orig (a.coawait.text ++ textOf (a.operand ++ [a.last, a.semi])),
    .ins (Emit.load verbose n (varsStrip a.stage.vars) (a.semiToken before).line).toList,
    .orig (textOf a.behind)]

theorem parts_original : Chunk.original (a.parts verbose n before) = textOf a.lexemes := by
  simp [parts, Chunk.original, lexemes, Lexeme.chars]

theorem parts_result : Chunk.result (a.parts verbose n before) =
    textOfItems verbose (a.output n before) := by
  have first : textOfItems verbose [.space a.coawait.gap, .note "save", .save n a.names,
      .line (a.begin' before).line "save", .token a.coawait] = a.coawait.gap ++
        ((Emit.save verbose n (varList a.stage.vars) (a.begin' before).line).toList ++
          a.coawait.text) := by
    rw [save_text]
    simp [textOfItems, Item.text_space, Item.text_token, names]
  have second : textOfItems verbose [.note "load", .label n, .load a.names,
      .line (a.semiToken before).line "load"] =
        (Emit.load verbose n (varsStrip a.stage.vars) (a.semiToken before).line).toList :=
    (load_text verbose n a.stage.vars _).symm
  simp only [output, textOfItems_append, textOfItems_lexemes, first, second, parts, Chunk.result,
    List.append_assoc, List.append_nil]

theorem parts_edits : Chunk.edits before.length (a.parts verbose n before) =
    [((a.begin' before).offset,
        (Emit.save verbose n (varList a.stage.vars) (a.begin' before).line).toList),
      ((a.semiToken before).offset + (a.semiToken before).length,
        (Emit.load verbose n (varsStrip a.stage.vars) (a.semiToken before).line).toList)] := by
  have first : (a.begin' before).offset = before.length + a.coawait.gap.length := rfl
  have second : (a.semiToken before).offset + (a.semiToken before).length =
      before.length + a.coawait.gap.length +
        (a.coawait.text ++ textOf (a.operand ++ [a.last, a.semi])).length := by
    rw [semiToken, Lexeme.token_end]
    simp only [List.length_append, textOf_append, textOf_cons, textOf_nil, Lexeme.chars,
      List.length_nil]
    omega
  rw [second, first]
  rfl

end AwaitText

def awaitsParts (verbose : Bool) : Nat → List Char → List AwaitText → List (Chunk Char)
  | _, _, [] => []
  | n, before, a :: as =>
    a.parts verbose n before ++ awaitsParts verbose (n + 1) (before ++ textOf a.lexemes) as

section
variable (verbose : Bool) (as : List AwaitText) (n : Nat) (before : List Char)

theorem awaitsParts_original :
    Chunk.original (awaitsParts verbose n before as) = textOf (awaitsText as) := by
  induction as generalizing n before with
  | nil => rfl
  | cons a as ih =>
    rw [awaitsParts, Chunk.original_append, a.parts_original, ih, awaitsText_cons, textOf_append]

theorem awaitsParts_result : Chunk.result (awaitsParts verbose n before as) =
    textOfItems verbose (awaitsOutput n before as) := by
  induction as generalizing n before with
  | nil => rfl
  | cons a as ih =>
    rw [awaitsParts, Chunk.result_append, a.parts_result, ih, awaitsOutput, textOfItems_append]

end

theorem patchStages_parts (verbose : Bool) {f : SourceFunction} (main : f.file = 1)
    {as : List AwaitText} {G H : List Lexeme} (n : Nat)
    (known : ∀ p ∈ awaitPlaces (textOf G) as, f.begins p.1 = p.2.1 ∧ f.ends p.1 = p.2.2) :
    f.patchStages verbose (tokensOf [] (G ++ awaitsText as ++ H)) n (as.map AwaitText.stage) =
      some ((Chunk.edits (textOf G).length (awaitsParts verbose n (textOf G) as)).map toEdit) := by
  induction as generalizing G n with
  | nil => rfl
  | cons a as ih =>
    obtain ⟨begins, ends⟩ := known _ List.mem_cons_self
    have rest := ih (G := G ++ a.lexemes) (n + 1) fun p mem =>
      known p (List.mem_cons_of_mem _ (by simpa [awaitPlaces] using mem))
    have text : G ++ awaitsText (a :: as) ++ H = G ++ a.lexemes ++ awaitsText as ++ H := by
      rw [awaitsText_cons, ← List.append_assoc G]
    have semi := a.semiAfter_end (G := G) (H := awaitsText as ++ H)
    rw [← List.append_assoc] at semi
    have first : f.patchStage verbose (tokensOf [] (G ++ a.lexemes ++ awaitsText as ++ H)) n a.stage =
        some ((Chunk.edits (textOf G).length (a.parts verbose n (textOf G))).map toEdit) := by
      simp only at begins ends
      rw [SourceFunction.patchStage, ends, semi, a.parts_edits, begins]
      simp [toEdit, SourceFunction.insertTextAfter, SourceFunction.insertTextAfterToken, main]
    rw [text, List.map_cons, SourceFunction.patchStages, first, rest, awaitsParts,
      Chunk.edits_append, a.parts_original, List.map_append, textOf_append, List.length_append]
    rfl

/-! ## One coroutine -/

namespace CoroutineText

variable (verbose : Bool) (c : CoroutineText) (before : List Char)

def parts : List (Chunk Char) :=
  [.orig (textOf (c.head ++ [c.brace])),
    .ins (Emit.preamble verbose c.returnType c.awaits.length (c.braceToken before).line).toList,
    .orig (textOf c.start)] ++ awaitsParts verbose 1 (c.opening before) c.awaits

theorem parts_original : Chunk.original (c.parts verbose before) = textOf c.lexemes := by
  simp [parts, Chunk.original, awaitsParts_original, lexemes]

theorem parts_result : Chunk.result (c.parts verbose before) =
    textOfItems verbose (c.output before) := by
  simp only [parts, Chunk.result_append, Chunk.result, awaitsParts_result, preamble_text, output,
    textOfItems_append, textOfItems_lexemes, List.append_assoc, List.append_nil]

theorem parts_inside : ∀ e ∈ Chunk.edits before.length (c.parts verbose before),
    before.length < e.1 ∧ e.1 ≤ (before ++ textOf c.lexemes).length := by
  intro e mem
  have pos := List.length_pos_iff.mpr c.brace.ne
  constructor
  · rw [parts, Chunk.edits_append] at mem
    have length : before.length < before.length + (textOf (c.head ++ [c.brace])).length := by
      simp only [textOf_append, textOf_cons, List.length_append, Lexeme.chars]
      omega
    rcases List.mem_append.mp mem with mem | mem
    · cases List.mem_singleton.mp mem
      exact length
    · refine Nat.lt_of_lt_of_le ?_ (Chunk.edits_inside e mem).1
      simp only [Chunk.original, List.length_append] at length ⊢
      omega
  · have := (Chunk.edits_inside e mem).2
    rwa [parts_original, ← List.length_append] at this

theorem patch_parts {F B : List Lexeme} :
    (c.function (textOf F)).patch verbose (tokensOf [] (F ++ c.lexemes ++ B)) c.stages =
      some ((Chunk.edits (textOf F).length (c.parts verbose (textOf F))).map toEdit) := by
  have opening : c.opening (textOf F) = textOf (F ++ c.head ++ c.brace :: c.start) := by
    simp [CoroutineText.opening]
  have text : F ++ c.lexemes ++ B =
      F ++ c.head ++ c.brace :: c.start ++ awaitsText c.awaits ++ B := by
    simp [lexemes]
  have known := fun p mem => c.function_places (textOf F) (p := p) mem
  rw [places, opening] at known
  have run := patchStages_parts verbose (f := c.function (textOf F)) rfl (H := B) 1 known
  rw [SourceFunction.patch, stages, text, run, parts, Chunk.edits_append, opening]
  have first : (c.braceToken (textOf F)).offset + (c.braceToken (textOf F)).length =
      (textOf F).length + (textOf (c.head ++ [c.brace])).length := by
    rw [braceToken, Lexeme.token_end]
    simp
  have rest : (textOf F).length + (Chunk.original [.orig (textOf (c.head ++ [c.brace])),
      .ins (Emit.preamble verbose c.returnType c.awaits.length (c.braceToken (textOf F)).line).toList,
      .orig (textOf c.start)]).length = (textOf (F ++ c.head ++ c.brace :: c.start)).length := by
    simp only [Chunk.original, textOf_append, textOf_cons, textOf_nil, List.length_append,
      List.length_nil]
    omega
  rw [rest]
  simp [Chunk.edits, toEdit, SourceFunction.insertTextAfterToken, function, first]

end CoroutineText

/-! ## One file -/

def coroutinesParts (verbose : Bool) : List Char → List CoroutineText → List (Chunk Char)
  | _, [] => []
  | before, c :: cs =>
    c.parts verbose before ++ coroutinesParts verbose (before ++ textOf c.lexemes) cs

/-- The edits of each coroutine. -/
def coroutinesEdits (verbose : Bool) :
    List Char → List CoroutineText → List (List (Nat × List Char))
  | _, [] => []
  | before, c :: cs => Chunk.edits before.length (c.parts verbose before) ::
      coroutinesEdits verbose (before ++ textOf c.lexemes) cs

section
variable (verbose : Bool) (cs : List CoroutineText) (before : List Char)

theorem coroutinesParts_original :
    Chunk.original (coroutinesParts verbose before cs) = textOf (coroutinesText cs) := by
  induction cs generalizing before with
  | nil => rfl
  | cons c cs ih =>
    rw [coroutinesParts, Chunk.original_append, c.parts_original, ih, coroutinesText_cons,
      textOf_append]

theorem coroutinesParts_result : Chunk.result (coroutinesParts verbose before cs) =
    textOfItems verbose (coroutinesOutput before cs) := by
  induction cs generalizing before with
  | nil => rfl
  | cons c cs ih =>
    rw [coroutinesParts, Chunk.result_append, c.parts_result, ih, coroutinesOutput,
      textOfItems_append]

theorem coroutinesEdits_flatten : (coroutinesEdits verbose before cs).flatten =
    Chunk.edits before.length (coroutinesParts verbose before cs) := by
  induction cs generalizing before with
  | nil => rfl
  | cons c cs ih =>
    rw [coroutinesEdits, List.flatten_cons, ih, coroutinesParts, Chunk.edits_append,
      c.parts_original, List.length_append]

theorem coroutinesEdits_later :
    ∀ g ∈ coroutinesEdits verbose before cs, ∀ e ∈ g, before.length < e.1 := by
  induction cs generalizing before with
  | nil => simp [coroutinesEdits]
  | cons c cs ih =>
    intro g mem e here
    rcases List.mem_cons.mp mem with rfl | mem
    · exact (c.parts_inside verbose before e here).1
    · have := ih _ g mem e here
      simp only [List.length_append] at this
      omega

theorem coroutinesEdits_apart : (coroutinesEdits verbose before cs).Pairwise
    fun g h => ∀ e ∈ g, ∀ e' ∈ h, e.1 ≠ e'.1 := by
  induction cs generalizing before with
  | nil => exact List.Pairwise.nil
  | cons c cs ih =>
    refine List.pairwise_cons.mpr ⟨fun h mem e here e' here' => ?_, ih _⟩
    have inside := (c.parts_inside verbose before e here).2
    have later := coroutinesEdits_later verbose cs _ h mem e' here'
    omega

theorem coroutines_patch {F B all : List Lexeme} (text : all = F ++ coroutinesText cs ++ B) {i : Nat}
    {c : CoroutineText} (here : cs[i]? = some c) : ∃ f es,
      (coroutinesFunctions (textOf F) cs)[i]? = some f ∧ f.file = 1 ∧
      (coroutinesEdits verbose (textOf F) cs)[i]? = some es ∧
      f.patch verbose (tokensOf [] all) c.stages = some (es.map toEdit) := by
  induction cs generalizing F i with
  | nil => simp at here
  | cons c' cs ih =>
    rw [coroutinesText_cons, ← List.append_assoc] at text
    cases i with
    | zero =>
      cases here
      refine ⟨_, _, rfl, rfl, rfl, ?_⟩
      rw [text, List.append_assoc (F ++ c.lexemes)]
      exact c.patch_parts verbose
    | succ i =>
      obtain ⟨f, es, known, main, edits, patch⟩ := ih text (by simpa using here)
      rw [textOf_append] at known edits
      exact ⟨f, es, known, main, edits, patch⟩

end

namespace Layout

variable (l : Layout)

theorem mem_functions {cs : List CoroutineText} {before : List Char} {f : SourceFunction}
    (mem : f ∈ coroutinesFunctions before cs) : ∃ front c back, cs = front ++ c :: back ∧
      f = c.function (before ++ textOf (coroutinesText front)) := by
  induction cs generalizing before with
  | nil => cases mem
  | cons c cs ih =>
    rcases List.mem_cons.mp mem with rfl | mem
    · exact ⟨[], c, cs, rfl, by simp [coroutinesText]⟩
    · obtain ⟨front, c', back, rfl, same⟩ := ih mem
      exact ⟨c :: front, c', back, rfl, by simpa [coroutinesText_cons] using same⟩

theorem function_text {f : SourceFunction} (mem : f ∈ coroutinesFunctions [] l.coroutines) :
    ∃ F, ∃ c : CoroutineText, ∃ B, l.lexemes = F ++ c.lexemes ++ B ∧ f = c.function (textOf F) := by
  obtain ⟨front, c, back, same, rfl⟩ := mem_functions mem
  refine ⟨coroutinesText front, c, coroutinesText back ++ l.tail, ?_, rfl⟩
  simp [lexemes, same, coroutinesText_append, coroutinesText_cons]

theorem await_text {F B : List Lexeme} {c : CoroutineText} {aw : CoawaitExpr}
    (text : l.lexemes = F ++ c.lexemes ++ B) (mem : aw ∈ c.decl.awaits) :
    ∃ G, ∃ a : AwaitText, ∃ H,
      l.lexemes = G ++ a.lexemes ++ H ∧
      (c.function (textOf F)).begins aw.at' = a.begin' (textOf G) ∧
      (c.function (textOf F)).ends aw.at' = a.end' (textOf G) := by
  rw [c.found] at mem
  obtain ⟨a, here, rfl⟩ := List.mem_map.mp mem
  obtain ⟨as, bs, split⟩ := List.append_of_mem here
  have places := c.function_places _ (c.split (textOf F) split)
  refine ⟨F ++ c.head ++ c.brace :: c.start ++ awaitsText as, a, awaitsText bs ++ B, ?_, ?_⟩
  · rw [text]
    simp [CoroutineText.lexemes, split, awaitsText_append, awaitsText_cons]
  · simpa [CoroutineText.opening] using places

/-- The file of these tokens. -/
def file : SourceFile where
  contents fid := if fid = 1 then textOf l.lexemes else []
  tokens fid := if fid = 1 then tokensOf [] l.lexemes else []
  functions := coroutinesFunctions [] l.coroutines
  inside := by
    intro fid tok mem
    split at mem
    · rename_i main
      rw [if_pos main]
      exact (tokensOf_inside tok mem).2.2
    · cases mem
  brace := by
    intro f mem _
    obtain ⟨F, c, B, text, rfl⟩ := l.function_text mem
    have brace := token_mem [] (F ++ c.head) (c.start ++ awaitsText c.awaits ++ B) c.brace
    rw [if_pos (show (c.function (textOf F)).file = 1 from rfl), text]
    simpa [CoroutineText.function, CoroutineText.braceToken, CoroutineText.lexemes] using brace
  begins := by
    intro f mem aw here
    obtain ⟨F, c, B, text, rfl⟩ := l.function_text mem
    obtain ⟨G, a, H, text', begins, _⟩ := l.await_text text here
    rw [if_pos (show (c.function (textOf F)).file = 1 from rfl), text', begins]
    exact a.begin_mem
  semi := by
    intro f mem aw here
    obtain ⟨F, c, B, text, rfl⟩ := l.function_text mem
    obtain ⟨G, a, H, text', _, ends⟩ := l.await_text text here
    rw [if_pos (show (c.function (textOf F)).file = 1 from rfl), text', ends, a.semiAfter_end]
    rfl

theorem matched_functions : l.file.matched [] = coroutinesFunctions [] l.coroutines := by
  have all : ∀ p ∈ l.file.functions.zipIdx,
      (p.1.coroutine && p.2 ∉ [] && p.1.decl.awaits ≠ []) = true := by
    intro p mem
    obtain ⟨F, c, B, _, same⟩ := l.function_text (List.fst_mem_of_mem_zipIdx mem)
    have found : c.decl.awaits ≠ [] := by
      rw [c.found]
      simpa using c.some'
    simp [same, CoroutineText.function, found]
  rw [SourceFile.matched, List.filter_eq_self.mpr all, List.zipIdx_map_fst]
  rfl

/-- The edits of an entry of the map. -/
def editsOf (verbose : Bool) (entry : Nat × List Stage) : List (Nat × List Char) :=
  ((coroutinesEdits verbose [] l.coroutines)[entry.1]?).getD []

theorem edits_order (verbose : Bool) {order : Stages} (known : ∀ entry ∈ order, entry ∈ l.stages) :
    edits ⟨verbose, order, [], fun _ => none⟩ l.file order =
      some ((order.map (l.editsOf verbose)).flatten.map toEdit) := by
  suffices all : ∀ rest, (∀ entry ∈ rest, entry ∈ l.stages) →
      edits ⟨verbose, order, [], fun _ => none⟩ l.file rest =
        some ((rest.map (l.editsOf verbose)).flatten.map toEdit) from all order known
  intro rest
  induction rest with
  | nil => exact fun _ => rfl
  | cons entry rest ih =>
    intro known
    obtain ⟨⟨c, i⟩, mem, rfl⟩ := List.mem_map.mp (known entry List.mem_cons_self)
    have here : l.coroutines[i]? = some c := List.mem_zipIdx_iff_getElem?.mp mem
    obtain ⟨f, es, found, main, own, patch⟩ :=
      coroutines_patch verbose l.coroutines (F := []) (B := l.tail) rfl here
    have tokens : l.file.tokens f.file = tokensOf [] l.lexemes := by
      rw [main]
      rfl
    have later := ih fun entry mem => known entry (List.mem_cons_of_mem _ mem)
    have matched : (l.file.matched [])[i]? = some f := by
      rw [matched_functions]
      exact found
    have mine : l.editsOf verbose (i, c.stages) = es := by
      rw [editsOf]
      exact congrArg (Option.getD · []) own
    rw [List.nil_append] at patch
    rw [edits, matched, Option.bind_eq_bind, Option.bind_some, tokens, later, List.map_cons,
      List.flatten_cons, List.map_append, mine, lexemes, patch]
    rfl

theorem editsOf_stages (verbose : Bool) :
    l.stages.map (l.editsOf verbose) = coroutinesEdits verbose [] l.coroutines := by
  have length : ∀ (cs : List CoroutineText) (before : List Char),
      (coroutinesEdits verbose before cs).length = cs.length := by
    intro cs
    induction cs with
    | nil => exact fun _ => rfl
    | cons c cs ih => exact fun before => congrArg Nat.succ (ih _)
  apply List.ext_getElem
  · simp [stages, length]
  · intro i h h'
    simp [stages, editsOf, h']

/-- Whatever the order of the map, the edits weave in the same. -/
theorem insertions_order (verbose : Bool) {order : Stages} (perm : order.Perm l.stages) :
    weave (insertions (order.map (l.editsOf verbose)).flatten) (textOf l.lexemes) =
      textOfItems verbose l.output := by
  have groups := perm.map (l.editsOf verbose)
  rw [l.editsOf_stages] at groups
  have same := insertions_perm groups.symm (coroutinesEdits_apart verbose l.coroutines [])
  let ps := coroutinesParts verbose [] l.coroutines ++ [.orig (textOf l.tail)]
  have original : Chunk.original ps = textOf l.lexemes := by
    simp only [ps, Chunk.original_append, coroutinesParts_original, lexemes, textOf_append,
      Chunk.original, List.append_nil]
  have result : Chunk.result ps = textOfItems verbose l.output := by
    simp only [ps, Chunk.result_append, coroutinesParts_result, output, textOfItems_append,
      textOfItems_lexemes, Chunk.result, List.append_nil]
  have planned : Chunk.edits 0 ps = (coroutinesEdits verbose [] l.coroutines).flatten := by
    rw [coroutinesEdits_flatten, Chunk.edits_append]
    simp [Chunk.edits]
  have woven := weave_edits ps 0
  simp only [Nat.zero_add] at woven
  rw [← same, ← planned, ← original, ← result]
  exact woven

theorem rewrite_text (verbose : Bool) {order : Stages} (perm : order.Perm l.stages) : ∃ v',
    (⟨verbose, order, [], fun _ => none⟩ : Valet).rewrite l.file = some v' ∧
    (bufferAt l.file.contents v'.buffers 1).text = textOfItems verbose l.output := by
  let es := (order.map (l.editsOf verbose)).flatten
  have asked := l.edits_order verbose fun entry mem => perm.mem_iff.mp mem
  have inside : ∀ e ∈ es, e.1 ≤ (textOf l.lexemes).length := by
    intro e mem
    have groups := (perm.map (l.editsOf verbose)).flatten.mem_iff.mp mem
    rw [l.editsOf_stages, coroutinesEdits_flatten] at groups
    have := (Chunk.edits_inside e groups).2
    rw [coroutinesParts_original] at this
    simp only [List.length_nil, Nat.zero_add] at this
    rw [lexemes, textOf_append, List.length_append]
    omega
  have own : (es.map toEdit).filter (fun e => e.file = 1) = es.map toEdit := by
    apply List.filter_eq_self.mpr
    intro e mem
    obtain ⟨e, _, rfl⟩ := List.mem_map.mp mem
    rfl
  have fits : ∀ e ∈ es.map toEdit, e.off ≤ (l.file.contents e.file).length := by
    intro e mem
    obtain ⟨e, here, rfl⟩ := List.mem_map.mp mem
    exact inside e here
  obtain ⟨buffers, run⟩ := (fits_new l.file.contents).run fits
  have buffer := insertText_buffer 1 run
  have pairs : (es.map toEdit).map (fun e => (e.off, e.text.toList)) = es := by
    simp [toEdit, Function.comp_def]
  obtain ⟨b, all, woven⟩ := weaves_run (textOf l.lexemes) es inside
  have main : bufferAt l.file.contents (fun _ => none) 1 = Buffer.new (textOf l.lexemes) := rfl
  rw [own, pairs, main, all] at buffer
  cases Option.some.inj buffer
  have step : (⟨verbose, order, [], fun _ => none⟩ : Valet).rewrite l.file =
      some ⟨verbose, [], [], buffers⟩ := by
    simp only [rewrite, asked, Option.bind_eq_bind, Option.bind_some]
    rw [run]
    rfl
  refine ⟨_, step, ?_⟩
  rw [woven.text]
  exact l.insertions_order verbose perm

end Layout

/-! ## What the output holds -/

theorem labelName_injective : Function.Injective labelName := by
  intro n m same
  have digits := congrArg String.toList same
  simp only [labelName, String.toList_append, List.append_cancel_left_eq, String.toList_inj] at digits
  exact Nat.repr_injective digits

/-- Calls and labels of one coroutine. -/
structure Agrees (c : CoroutineText) (items : List Item) : Prop where
  labels : Item.labels items = List.range (c.awaits.length + 1)
  once : ((Item.labels items).map labelName).Nodup
  table : Item.tables items = [List.range (c.awaits.length + 1)]
  saves : Item.saves items = (c.awaits.zipIdx 1).map fun p => (p.2, p.1.names)
  loads : Item.loads items = (Item.saves items).map Prod.snd
  tokens : Item.tokens items = c.lexemes

theorem filterMap_lexemes {A : Type} {g : Item → Option A} (space : ∀ cs, g (.space cs) = none)
    (token : ∀ l, g (.token l) = none) (ls : List Lexeme) :
    (ls.flatMap Item.lexeme).filterMap g = [] := by
  induction ls with
  | nil => rfl
  | cons l ls ih => simp [Item.lexeme, space, token, ih]

theorem tokens_lexemes (ls : List Lexeme) : Item.tokens (ls.flatMap Item.lexeme) = ls := by
  induction ls with
  | nil => rfl
  | cons l ls ih =>
    rw [Item.tokens] at ih ⊢
    simp [Item.lexeme, ih]

namespace Item

variable (items items' : List Item)

theorem labels_append : labels (items ++ items') = labels items ++ labels items' :=
  List.filterMap_append

theorem tables_append : tables (items ++ items') = tables items ++ tables items' :=
  List.filterMap_append

theorem saves_append : saves (items ++ items') = saves items ++ saves items' :=
  List.filterMap_append

theorem loads_append : loads (items ++ items') = loads items ++ loads items' :=
  List.filterMap_append

theorem tokens_append : tokens (items ++ items') = tokens items ++ tokens items' :=
  List.filterMap_append

variable (ls : List Lexeme)

@[simp] theorem labels_lexemes : labels (ls.flatMap lexeme) = [] :=
  filterMap_lexemes (fun _ => rfl) (fun _ => rfl) ls

@[simp] theorem tables_lexemes : tables (ls.flatMap lexeme) = [] :=
  filterMap_lexemes (fun _ => rfl) (fun _ => rfl) ls

@[simp] theorem saves_lexemes : saves (ls.flatMap lexeme) = [] :=
  filterMap_lexemes (fun _ => rfl) (fun _ => rfl) ls

@[simp] theorem loads_lexemes : loads (ls.flatMap lexeme) = [] :=
  filterMap_lexemes (fun _ => rfl) (fun _ => rfl) ls

end Item

theorem awaitsOutput_spec (n : Nat) (before : List Char) (as : List AwaitText) :
    Item.labels (awaitsOutput n before as) = List.range' n as.length ∧
    Item.tables (awaitsOutput n before as) = [] ∧
    Item.saves (awaitsOutput n before as) = (as.zipIdx n).map (fun p => (p.2, p.1.names)) ∧
    Item.loads (awaitsOutput n before as) = as.map AwaitText.names ∧
    Item.tokens (awaitsOutput n before as) = awaitsText as := by
  induction as generalizing n before with
  | nil => simp [awaitsOutput, Item.labels, Item.tables, Item.saves, Item.loads, Item.tokens, awaitsText]
  | cons a as ih =>
    obtain ⟨labels, tables, saves, loads, tokens⟩ := ih (n + 1) (before ++ textOf a.lexemes)
    simp only [awaitsOutput, AwaitText.output, Item.labels_append, Item.tables_append,
      Item.saves_append, Item.loads_append, Item.tokens_append, labels, tables, saves, loads,
      tokens, Item.labels_lexemes, Item.tables_lexemes, Item.saves_lexemes, Item.loads_lexemes,
      tokens_lexemes, awaitsText_cons]
    simp [Item.labels, Item.tables, Item.saves, Item.loads, Item.tokens, List.range'_succ,
      AwaitText.lexemes]

theorem output_agrees (c : CoroutineText) (before : List Char) : Agrees c (c.output before) := by
  obtain ⟨labels, tables, saves, loads, tokens⟩ := awaitsOutput_spec 1 (c.opening before) c.awaits
  have all : Item.labels (c.output before) = List.range (c.awaits.length + 1) := by
    simp only [CoroutineText.output, Item.labels_append, Item.labels_lexemes, labels]
    rw [List.range_eq_range', List.range'_succ]
    rfl
  have calls : Item.saves (c.output before) = (c.awaits.zipIdx 1).map fun p => (p.2, p.1.names) := by
    simp only [CoroutineText.output, Item.saves_append, Item.saves_lexemes, saves]
    rfl
  refine ⟨all, ?_, ?_, calls, ?_, ?_⟩
  · rw [all]
    exact List.nodup_range.map labelName_injective
  · simp only [CoroutineText.output, Item.tables_append, Item.tables_lexemes, tables]
    rfl
  · have names : (c.awaits.zipIdx 1).map (AwaitText.names ∘ Prod.fst) = c.awaits.map AwaitText.names := by
      rw [← List.map_map, List.zipIdx_map_fst]
    rw [calls, List.map_map]
    simp only [CoroutineText.output, Item.loads_append, Item.loads_lexemes, loads, ← names]
    rfl
  · simp only [CoroutineText.output, Item.tokens_append, tokens_lexemes, tokens]
    simp [Item.tokens, CoroutineText.lexemes]

theorem coroutinesOutput_pieces (before : List Char) (cs : List CoroutineText) : ∃ pieces,
    coroutinesOutput before cs = pieces.flatten ∧ List.Forall₂ Agrees cs pieces := by
  induction cs generalizing before with
  | nil => exact ⟨[], rfl, .nil⟩
  | cons c cs ih =>
    obtain ⟨pieces, same, agree⟩ := ih (before ++ textOf c.lexemes)
    exact ⟨c.output before :: pieces, by rw [coroutinesOutput, same, List.flatten_cons],
      .cons (output_agrees c before) agree⟩

/-- The text that `rewrite` makes of such a file: in each coroutine the labels, the table and
the calls agree. -/
theorem rewrite_layout (l : Layout) (verbose : Bool) {order : Stages} (perm : order.Perm l.stages) :
    ∃ v' pieces, (⟨verbose, order, [], fun _ => none⟩ : Valet).rewrite l.file = some v' ∧
      (bufferAt l.file.contents v'.buffers 1).text = textOfItems verbose l.output ∧
      l.output = pieces.flatten ++ l.tail.flatMap Item.lexeme ∧
      List.Forall₂ Agrees l.coroutines pieces := by
  obtain ⟨v', step, text⟩ := l.rewrite_text verbose perm
  obtain ⟨pieces, same, agree⟩ := coroutinesOutput_pieces [] l.coroutines
  exact ⟨v', pieces, step, text, by rw [Layout.output, same], agree⟩

def plainLexeme (gap text : String) (ne : text.toList ≠ []) : Lexeme :=
  ⟨gap.toList, text.toList, false, ne⟩

/-- `co_await op();`, the `n`-th, with nothing around it. -/
def plainAwait (n : Nat) : AwaitText where
  stage := ⟨⟨n, [0], false⟩, [0], []⟩
  coawait := plainLexeme "" "co_await" (by decide)
  operand := [plainLexeme " " "op" (by decide), plainLexeme "" "(" (by decide)]
  last := plainLexeme "" ")" (by decide)
  semi := ⟨[], [';'], true, by decide⟩
  isSemi := rfl
  behind := []

/-- `{co_await op();co_await op();` and then `{co_await op();` -/
def twoCoroutines : Layout where
  coroutines :=
    [⟨"ser_ctx<>", ⟨[], .coawait .nil (.coawait .nil .nil)⟩, [], plainLexeme "" "\x7b" (by decide), [],
      [plainAwait 1, plainAwait 2], by decide, by decide⟩,
    ⟨"ser_ctx<int>", ⟨[], .coawait .nil .nil⟩, [], plainLexeme "" "\x7b" (by decide), [],
      [plainAwait 1], by decide, by decide⟩]
  tail := []

/-- The second coroutine first. -/
example : ∃ v' pieces,
    (⟨false, twoCoroutines.stages.reverse, [], fun _ => none⟩ : Valet).rewrite twoCoroutines.file =
      some v' ∧
    (bufferAt twoCoroutines.file.contents v'.buffers 1).text =
      textOfItems false twoCoroutines.output ∧
    twoCoroutines.output = pieces.flatten ++ twoCoroutines.tail.flatMap Item.lexeme ∧
    List.Forall₂ Agrees twoCoroutines.coroutines pieces :=
  rewrite_layout twoCoroutines false (List.reverse_perm _)

end Valor.Valet
