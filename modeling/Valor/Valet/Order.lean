import Valor.Lib.Misplaced
import Valor.Valet.Headers
import Valor.Valet.Labels
import Valor.Valet.Relex

/-! Files in which every `co_await` is a statement of a block: what should come out for the
coroutines, with labels, jump table and calls that agree, and when it does. -/
namespace Valor.Valet

open Edits

namespace FunctionDecl

/-- What Valet saves and loads at a `co_await`. -/
def saved (f : FunctionDecl) (aw : CoawaitExpr) : List VarDecl :=
  f.vars.filter (accepts aw.at' aw.blocks)

end FunctionDecl

namespace SourceFunction

/-- The `co_await`s of a coroutine are statements, one behind the other, that end in the
semicolons `closes`. Those of a function inside it are not its own. -/
structure Statements (f : SourceFunction) (tokens : List Token) (closes : Nat → Token) : Prop where
  semi : ∀ aw ∈ f.decl.ownAwaits, closes aw.at' ∈ tokens ∧ (closes aw.at').semi = true
  first : ∀ aw ∈ f.decl.ownAwaits, f.brace.offset + f.brace.length ≤ (f.begins aw.at').offset
  behind : ∀ aw ∈ f.decl.ownAwaits, (f.begins aw.at').offset ≤ (f.ends aw.at').offset ∧
    (f.ends aw.at').offset < (closes aw.at').offset
  ordered : f.decl.ownAwaits.Pairwise fun a b =>
    (closes a.at').offset + (closes a.at').length ≤ (f.begins b.at').offset

/-- Where something should be inserted. -/
def OwnPlace (f : SourceFunction) (closes : Nat → Token) (off : Nat) : Prop :=
  off = f.brace.offset + f.brace.length ∨ ∃ aw ∈ f.decl.ownAwaits,
    off = (f.begins aw.at').offset ∨ off = (closes aw.at').offset + (closes aw.at').length

variable (f : SourceFunction) (closes : Nat → Token)

/-- What should be inserted at the `n`-th `co_await`. -/
def awaitPieces (p : CoawaitExpr × Nat) : List (Nat × List Item) :=
  let names := (f.decl.saved p.1).map VarDecl.name
  let aw := f.begins p.1.at'
  let semi := closes p.1.at'
  [(aw.offset, [.note "save", .save p.2 names, .line aw.line "save"]),
    (semi.offset + semi.length, [.note "load", .label p.2, .load names, .line semi.line "load"])]

/-- What should be inserted for a coroutine, in the order of the text. -/
def pieces : List (Nat × List Item) :=
  (f.brace.offset + f.brace.length,
    [.promise f.returnType,
      .dispatch f.decl.ownAwaits.length (List.range (f.decl.ownAwaits.length + 1)), .label 0,
      .line f.brace.line "preamble"]) ::
  (f.decl.ownAwaits.zipIdx 1).flatMap (f.awaitPieces closes)

def expects (verbose : Bool) : List (Nat × List Char) :=
  (f.pieces closes).map fun p => (p.1, textOfItems verbose p.2)

end SourceFunction

/-- A file whose tokens are found by the lexer, and whose coroutines are written one behind
the other or one inside the other, with a brace of its own for each. -/
structure StatementFile extends SourceFile where
  closes : SourceFunction → Nat → Token
  sorted : ∀ fid, (tokens fid).Pairwise fun s t => s.offset + s.length ≤ t.offset
  nonempty : ∀ fid, ∀ t ∈ tokens fid, 0 < t.length
  semicolon : ∀ fid, ∀ t ∈ tokens fid, t.semi = true →
    (contents fid)[t.offset + t.length - 1]? = some ';'
  statements : ∀ f ∈ functions, f.coroutine → f.Statements (tokens f.file) (closes f)
  apart : functions.Pairwise fun f g => f.coroutine → g.coroutine → f.file = g.file →
    ∀ off, f.OwnPlace (closes f) off → ¬ g.OwnPlace (closes g) off

namespace StatementFile

variable (file : StatementFile) (verbose : Bool)

def expects (fid : Nat) : List (List (Nat × List Char)) :=
  (file.rewrittenIn fid).map fun f => f.expects (file.closes f) verbose

/-- Whatever the order of the map, every file with coroutines that are rewritten is written,
as its text with just what should be inserted for them. -/
def InOrder : Prop :=
  ∀ stages : Stages, stages.Perm (file.collected verbose).stages → ∀ fid,
    ({ file.collected verbose with stages }.handleEndSource file.toSourceFile).map
      (fun r : Valet × Output => r.2 fid) = some (file.textFor fid (file.expects verbose fid))

def rawText (fid : Nat) : RawText :=
  ⟨file.tokens fid, (file.contents fid).length, file.sorted fid, file.nonempty fid, file.inside fid⟩

end StatementFile

/-! ## What should come out -/

/-- The labels of a coroutine, its table and its calls agree. -/
theorem pieces_agree (f : SourceFunction) (closes : Nat → Token) :
    let items := (f.pieces closes).flatMap Prod.snd
    Item.labels items = List.range (f.decl.ownAwaits.length + 1) ∧
    ((Item.labels items).map labelName).Nodup ∧
    Item.tables items = [List.range (f.decl.ownAwaits.length + 1)] ∧
    Item.saves items = (f.decl.ownAwaits.zipIdx 1).map (fun p =>
      (p.2, (f.decl.saved p.1).map VarDecl.name)) ∧
    Item.loads items = (Item.saves items).map Prod.snd := by
  have awaits (n : Nat) (aws : List CoawaitExpr) :
      let items := ((aws.zipIdx n).flatMap (f.awaitPieces closes)).flatMap Prod.snd
      Item.labels items = List.range' n aws.length ∧ Item.tables items = [] ∧
      Item.saves items = (aws.zipIdx n).map (fun p =>
        (p.2, (f.decl.saved p.1).map VarDecl.name)) ∧
      Item.loads items = (Item.saves items).map Prod.snd := by
    induction aws generalizing n with
    | nil => simp [Item.labels, Item.tables, Item.saves, Item.loads]
    | cons aw aws ih =>
      obtain ⟨labels, tables, saves, loads⟩ := ih (n + 1)
      simp only [List.zipIdx_cons, List.flatMap_cons, List.flatMap_append, Item.labels_append,
        Item.tables_append, Item.saves_append, Item.loads_append, labels, tables, saves, loads]
      simp [SourceFunction.awaitPieces, Item.labels, Item.tables, Item.saves, Item.loads,
        List.range'_succ]
  obtain ⟨labels, tables, saves, loads⟩ := awaits 1 f.decl.ownAwaits
  have all : Item.labels ((f.pieces closes).flatMap Prod.snd) =
      List.range (f.decl.ownAwaits.length + 1) := by
    simp only [SourceFunction.pieces, List.flatMap_cons, Item.labels_append, labels]
    rw [List.range_eq_range', List.range'_succ]
    rfl
  refine ⟨all, ?_, ?_, ?_, ?_⟩
  · rw [all]
    exact List.nodup_range.map labelName_injective
  · simp only [SourceFunction.pieces, List.flatMap_cons, Item.tables_append, tables]
    rfl
  · simp only [SourceFunction.pieces, List.flatMap_cons, Item.saves_append, saves]
    rfl
  · simp only [SourceFunction.pieces, List.flatMap_cons, Item.saves_append, Item.loads_append,
      loads]
    rfl

/-! ## What is asked for -/

namespace SourceFunction

variable (f : SourceFunction) (verbose : Bool)

/-- The semicolon that is found for a `co_await`. -/
def found (tokens : List Token) (aw : CoawaitExpr) : Token :=
  (semiAfter tokens (f.ends aw.at').offset).getD f.brace

/-- The edits at the `n`-th `co_await`, for a semicolon. -/
def awaitEdits (semi : CoawaitExpr → Token) (p : CoawaitExpr × Nat) : List (Nat × List Char) :=
  [((f.begins p.1.at').offset,
      (Emit.save verbose p.2 (varList (f.decl.saved p.1)) (f.begins p.1.at').line).toList),
    ((semi p.1).offset + (semi p.1).length,
      (Emit.load verbose p.2 (varsStrip (f.decl.saved p.1)) (semi p.1).line).toList)]

def editsWith (awaits : List CoawaitExpr) (semi : CoawaitExpr → Token) : List (Nat × List Char) :=
  (f.brace.offset + f.brace.length,
    (Emit.preamble verbose f.returnType awaits.length f.brace.line).toList) ::
  (awaits.zipIdx 1).flatMap (f.awaitEdits verbose semi)

theorem expects_eq (closes : Nat → Token) :
    f.expects closes verbose = f.editsWith verbose f.decl.ownAwaits fun aw => closes aw.at' := by
  have awaits (ps : List (CoawaitExpr × Nat)) :
      ((ps.flatMap (f.awaitPieces closes)).map fun p => (p.1, textOfItems verbose p.2)) =
        ps.flatMap (f.awaitEdits verbose fun aw => closes aw.at') := by
    rw [List.map_flatMap]
    apply List.flatMap_congr
    intro p _
    simp only [awaitPieces, awaitEdits, List.map_cons, List.map_nil, save_text, load_text]
  rw [expects, pieces, List.map_cons, awaits, editsWith, preamble_text]

theorem asks_eq {tokens : List Token}
    (semi : ∀ aw ∈ f.decl.awaits, (semiAfter tokens (f.ends aw.at').offset).isSome) :
    f.asks verbose tokens = f.editsWith verbose f.decl.awaits (f.found tokens) := by
  have stages (aws : List CoawaitExpr) (n : Nat) (known : ∀ aw ∈ aws, aw ∈ f.decl.awaits) :
      (f.patchStages verbose tokens n (aws.map fun aw => ⟨aw, aw.blocks, f.decl.saved aw⟩)).map
          (List.map Edit.insertion) =
        some ((aws.zipIdx n).flatMap (f.awaitEdits verbose (f.found tokens))) := by
    induction aws generalizing n with
    | nil => rfl
    | cons aw aws ih =>
      have rest := ih (n + 1) fun aw mem => known aw (List.mem_cons_of_mem _ mem)
      obtain ⟨edits, patched, later⟩ := Option.map_eq_some_iff.mp rest
      obtain ⟨tok, here⟩ := Option.isSome_iff_exists.mp (semi aw (known aw List.mem_cons_self))
      simp only [List.map_cons, patchStages, patchStage, here, patched, Option.map_some,
        Option.bind_eq_bind, Option.bind_some, pure, List.zipIdx_cons, List.flatMap_cons, ← later]
      simp [awaitEdits, found, here, insertTextAfter, insertTextAfterToken, Edit.insertion]
  obtain ⟨edits, patched, all⟩ :=
    Option.map_eq_some_iff.mp (stages f.decl.awaits 1 fun _ mem => mem)
  have own : f.decl.stages = f.decl.awaits.map fun aw => ⟨aw, aw.blocks, f.decl.saved aw⟩ := rfl
  rw [asks, patch, own, patched, Option.map_some, Option.getD_some, List.map_cons, all, editsWith,
    List.length_map]
  rfl

end SourceFunction

/-! ## How much is inserted -/

theorem count_number {c : Char} (digit : c.isDigit = false) (n : Nat) :
    (toString n).toList.count c = 0 := by
  apply List.count_eq_zero.mpr
  intro mem
  rw [Nat.toString_eq_repr, Nat.toList_repr] at mem
  have isDigit := Nat.isDigit_of_mem_toDigits (by decide) (by decide) mem
  rw [digit] at isDigit
  cases isDigit

section count

variable {c : Char} (digit : c.isDigit = false) (verbose : Bool)

include digit

theorem count_save (n lineno : Nat) (varlist : String) :
    (Emit.save verbose n varlist lineno).toList.count c =
      (Emit.save verbose 0 varlist 0).toList.count c := by
  simp only [-String.reduceAppend, Emit.save, String.toList_append, List.count_append,
    count_number digit]

theorem count_load (n lineno : Nat) (varlist : String) :
    (Emit.load verbose n varlist lineno).toList.count c =
      (Emit.load verbose 0 varlist 0).toList.count c := by
  simp only [-String.reduceAppend, Emit.load, String.toList_append, List.count_append,
    count_number digit]

end count

theorem count_entries (ns : List Nat) :
    (String.join (ns.map Emit.jumpTableEntry)).toList.count '>' = 0 := by
  induction ns with
  | nil => rfl
  | cons n ns ih =>
    have entry : (Emit.jumpTableEntry n).toList.count '>' = 0 := by
      delta Emit.jumpTableEntry
      rw [String.toList_append, String.toList_append, List.count_append, List.count_append,
        count_number (c := '>') rfl]
      decide
    rw [List.map_cons, String.join_cons, String.toList_append, List.count_append, entry, ih]

theorem count_preamble (verbose : Bool) (ctxType : String) (labels lineno : Nat) :
    (Emit.preamble verbose ctxType labels lineno).toList.count '>' =
      (Emit.preamble verbose ctxType 0 0).toList.count '>' := by
  delta Emit.preamble
  simp only [-String.reduceAppend, String.toList_append, List.count_append,
    count_number (c := '>') rfl, count_entries]

namespace SourceFunction

variable (f : SourceFunction) (verbose : Bool)

/-- The arrows that a `co_await` adds. -/
def arrows (aw : CoawaitExpr) : Nat :=
  (Emit.save verbose 0 (varList (f.decl.saved aw)) 0).toList.count '>' +
    (Emit.load verbose 0 (varsStrip (f.decl.saved aw)) 0).toList.count '>'

theorem arrows_pos (aw : CoawaitExpr) : 0 < f.arrows verbose aw := by
  apply Nat.add_pos_left
  apply List.count_pos_iff.mpr
  have arrow : '>' ∈ "\n_valet_p->save(".toList := by decide +kernel
  simp only [-String.reduceAppend, Emit.save, String.toList_append, List.mem_append, arrow,
    true_or, or_true]

theorem count_editsWith (awaits : List CoawaitExpr) (semi : CoawaitExpr → Token) :
    ((f.editsWith verbose awaits semi).flatMap Prod.snd).count '>' =
      (Emit.preamble verbose f.returnType 0 0).toList.count '>' +
        (awaits.map (f.arrows verbose)).sum := by
  have all (n : Nat) : (((awaits.zipIdx n).flatMap (f.awaitEdits verbose semi)).flatMap
      Prod.snd).count '>' = (awaits.map (f.arrows verbose)).sum := by
    induction awaits generalizing n with
    | nil => rfl
    | cons aw aws ih =>
      rw [List.zipIdx_cons, List.flatMap_cons, List.flatMap_append, List.count_append, ih,
        List.map_cons, List.sum_cons, arrows]
      simp [awaitEdits, count_save (c := '>') rfl verbose n, count_load (c := '>') rfl verbose n]
  rw [editsWith, List.flatMap_cons, List.count_append, all, count_preamble]

end SourceFunction

namespace StatementFile

variable {file : StatementFile} {verbose : Bool} {f : SourceFunction} {aw : CoawaitExpr}

theorem own_await (own : aw ∈ f.decl.ownAwaits) : aw ∈ f.decl.awaits := (List.mem_filter.mp own).1

theorem matched_asks (mem : f ∈ file.matched file.skipped) (verbose : Bool) :
    f.asks verbose (file.tokens f.file) =
      f.editsWith verbose f.decl.awaits (f.found (file.tokens f.file)) :=
  f.asks_eq verbose (file.semi f (mem_matched mem).1)

theorem matched_statements (mem : f ∈ file.matched file.skipped) :
    f.Statements (file.tokens f.file) (file.closes f) :=
  file.statements f (mem_matched mem).1 (mem_matched mem).2.1

theorem asks_inside (mem : f ∈ file.matched file.skipped) :
    ∀ e ∈ f.asks verbose (file.tokens f.file), e.1 ≤ (file.contents f.file).length := by
  intro e here
  obtain ⟨listed, coroutine, _⟩ := mem_matched mem
  obtain ⟨own, patched, _, fits⟩ := file.patch_spec verbose listed coroutine
    fun st (here : st ∈ f.decl.stages) => stages_awaits here
  rw [SourceFunction.asks, patched, Option.getD_some] at here
  obtain ⟨edit, asked, rfl⟩ := List.mem_map.mp here
  have inside := (fits edit asked).1
  rwa [patch_file patched edit asked] at inside

theorem expects_places (f : SourceFunction) (closes : Nat → Token) :
    ∀ e ∈ f.expects closes verbose, f.OwnPlace closes e.1 := by
  intro e mem
  rw [f.expects_eq verbose closes] at mem
  rcases List.mem_cons.mp mem with rfl | mem
  · exact .inl rfl
  · obtain ⟨p, here, mem⟩ := List.mem_flatMap.mp mem
    have own := List.fst_mem_of_mem_zipIdx here
    simp only [SourceFunction.awaitEdits, List.mem_cons, List.not_mem_nil, or_false] at mem
    rcases mem with rfl | rfl
    · exact .inr ⟨p.1, own, .inl rfl⟩
    · exact .inr ⟨p.1, own, .inr rfl⟩

theorem expects_inside (mem : f ∈ file.matched file.skipped) :
    ∀ e ∈ f.expects (file.closes f) verbose, e.1 ≤ (file.contents f.file).length := by
  intro e here
  obtain ⟨listed, coroutine, _⟩ := mem_matched mem
  rcases expects_places f (file.closes f) e here with place | ⟨aw, own, place | place⟩
  · rw [place]
    exact file.inside _ _ (file.brace f listed coroutine)
  · have := file.inside _ _ (file.begins f listed aw (own_await own))
    omega
  · rw [place]
    exact file.inside _ _ ((matched_statements mem).semi aw own).1

theorem mem_rewrittenIn {fid : Nat} :
    f ∈ file.rewrittenIn fid ↔ f ∈ file.matched file.skipped ∧ f.file = fid := by
  simp [SourceFile.rewrittenIn]

theorem all_asks_inside (file : StatementFile) (verbose : Bool) (fid : Nat) :
    ∀ e ∈ (file.asks verbose fid).flatten, e.1 ≤ (file.contents fid).length := by
  intro e mem
  obtain ⟨_, listed, here⟩ := List.mem_flatten.mp mem
  obtain ⟨f, rewritten, rfl⟩ := List.mem_map.mp listed
  obtain ⟨matched, rfl⟩ := mem_rewrittenIn.mp rewritten
  exact asks_inside matched e here

theorem all_expects_inside (file : StatementFile) (verbose : Bool) (fid : Nat) :
    ∀ e ∈ (file.expects verbose fid).flatten, e.1 ≤ (file.contents fid).length := by
  intro e mem
  obtain ⟨_, listed, here⟩ := List.mem_flatten.mp mem
  obtain ⟨f, rewritten, rfl⟩ := List.mem_map.mp listed
  obtain ⟨matched, rfl⟩ := mem_rewrittenIn.mp rewritten
  exact expects_inside matched e here

theorem in_order_textFor : file.InOrder verbose ↔ ∀ fid order,
    order.Perm (file.asks verbose fid) →
      file.textFor fid order = file.textFor fid (file.expects verbose fid) := by
  constructor
  · intro h fid order perm
    obtain ⟨stages, perm, out⟩ := outcome_iff.mpr ⟨order, perm, rfl⟩
    exact Option.some.inj (out.symm.trans (h stages perm fid))
  · intro same stages perm fid
    rw [order_textFor perm fid, same]
    rw [← entries_asks]
    exact (perm.map _).filter _

/-- The functions of a file in the order in which they are listed. -/
theorem InOrder.text (h : file.InOrder verbose) (fid : Nat) :
    weave (insertions (file.asks verbose fid).flatten) (file.contents fid) =
      weave (insertions (file.expects verbose fid).flatten) (file.contents fid) := by
  by_cases none : file.rewrittenIn fid = []
  · rw [SourceFile.asks, expects, none, List.map_nil, List.map_nil]
  · have some' : file.asks verbose fid ≠ [] := fun nothing => none (List.map_eq_nil_iff.mp nothing)
    have expected : file.expects verbose fid ≠ [] := fun nothing =>
      none (List.map_eq_nil_iff.mp nothing)
    have same := in_order_textFor.mp h fid _ (.refl _)
    rw [SourceFile.textFor, SourceFile.textFor, if_neg some', if_neg expected] at same
    exact Option.some.inj same

/-! ## What is needed -/

theorem InOrder.unnested (h : file.InOrder verbose) :
    ∀ f ∈ file.matched file.skipped, ∀ aw ∈ f.decl.awaits, aw.nested = false := by
  intro f mem aw await
  let own (g : SourceFunction) : Nat :=
    ((g.expects (file.closes g) verbose).flatMap Prod.snd).count '>'
  let nested (g : SourceFunction) : Nat :=
    ((g.decl.awaits.filter fun aw => aw.nested).map (g.arrows verbose)).sum
  have counts : ∀ g ∈ file.rewrittenIn f.file,
      ((g.asks verbose (file.tokens f.file)).flatMap Prod.snd).count '>' = own g + nested g := by
    intro g here
    obtain ⟨matched, same⟩ := mem_rewrittenIn.mp here
    have split :=
      (List.filter_append_perm (fun aw => !aw.nested) g.decl.awaits).map (g.arrows verbose)
    have sums := split.sum_eq
    simp only [Bool.not_not, List.map_append, List.sum_append] at sums
    rw [← same, matched_asks matched]
    simp only [own, nested, g.expects_eq verbose, SourceFunction.count_editsWith,
      FunctionDecl.ownAwaits]
    omega
  have made :=
    (weave_perm (file.contents f.file) (file.all_asks_inside verbose f.file)).count_eq '>'
  have meant :=
    (weave_perm (file.contents f.file) (file.all_expects_inside verbose f.file)).count_eq '>'
  rw [h.text f.file] at made
  -- There are no more arrows in the text than there should be.
  have arrows := made.symm.trans meant
  simp only [List.count_append, Nat.add_left_cancel_iff, SourceFile.asks, expects,
    ← List.flatMap_def, List.flatMap_assoc] at arrows
  rw [List.count_flatMap, List.count_flatMap] at arrows
  have sums : ((file.rewrittenIn f.file).map fun g => own g + nested g).sum =
      ((file.rewrittenIn f.file).map own).sum := by
    rw [← List.map_congr_left counts]
    exact arrows
  rw [List.sum_map_add] at sums
  have none := List.sum_eq_zero_iff_forall_eq_nat.mp (Nat.add_eq_left.mp sums)
  have here : nested f = 0 := none _ (List.mem_map_of_mem (mem_rewrittenIn.mpr ⟨mem, rfl⟩))
  by_contra inside
  have counted := List.sum_eq_zero_iff_forall_eq_nat.mp here (f.arrows verbose aw)
    (List.mem_map_of_mem (List.mem_filter.mpr ⟨await, Bool.eq_true_of_not_eq_false inside⟩))
  exact absurd counted (Nat.ne_of_gt (f.arrows_pos verbose aw))

theorem ownAwaits_eq {f : FunctionDecl} (unnested : ∀ aw ∈ f.awaits, aw.nested = false) :
    f.ownAwaits = f.awaits :=
  List.filter_eq_self.mpr fun aw mem => by simp [unnested aw mem]

/-- What is found is the first semicolon, so never one behind that of the statement. -/
theorem found_first (mem : f ∈ file.matched file.skipped) (own : aw ∈ f.decl.ownAwaits) :
    f.found (file.tokens f.file) aw ∈ file.tokens f.file ∧
      (file.rawText f.file).FirstSemi (f.ends aw.at').offset
        (f.found (file.tokens f.file) aw).offset := by
  obtain ⟨tok, here⟩ :=
    Option.isSome_iff_exists.mp (file.semi f (mem_matched mem).1 aw (own_await own))
  have first : (file.rawText f.file).FirstSemi (f.ends aw.at').offset tok.offset :=
    RawText.search_some here
  rw [SourceFunction.found, here, Option.getD_some]
  exact ⟨semiAfter_mem here, first⟩

theorem found_or (mem : f ∈ file.matched file.skipped) (own : aw ∈ f.decl.ownAwaits) :
    f.found (file.tokens f.file) aw = file.closes f aw.at' ∨
      (f.found (file.tokens f.file) aw).offset + (f.found (file.tokens f.file) aw).length ≤
        (file.closes f aw.at').offset := by
  obtain ⟨listed, _, _, first⟩ := found_first mem own
  have statements := matched_statements mem
  obtain ⟨closes, semi⟩ := statements.semi aw own
  have le := first _ closes semi (statements.behind aw own).2
  have pos := file.nonempty _ _ closes
  rcases RawText.apart_or (file.sorted f.file) listed closes with same | before | behind
  · exact .inl same
  · exact .inr before
  · omega

/-- The edits of a function, as they are made and as they are meant. -/
def placings (file : StatementFile) (verbose : Bool) (f : SourceFunction) :
    List (Placing Char) :=
  let opening := (f.brace.offset + f.brace.length,
    (Emit.preamble verbose f.returnType f.decl.awaits.length f.brace.line).toList)
  ⟨opening, opening⟩ :: (f.decl.awaits.zipIdx 1).flatMap fun p =>
    List.zipWith Placing.mk (f.awaitEdits verbose (f.found (file.tokens f.file)) p)
      (f.awaitEdits verbose (fun aw => file.closes f aw.at') p)

theorem placings_made (mem : f ∈ file.matched file.skipped) :
    (file.placings verbose f).map Placing.made = f.asks verbose (file.tokens f.file) := by
  rw [matched_asks mem, placings, List.map_cons, List.map_flatMap]
  rfl

theorem placings_meant (unnested : ∀ aw ∈ f.decl.awaits, aw.nested = false) :
    (file.placings verbose f).map Placing.meant = f.expects (file.closes f) verbose := by
  rw [f.expects_eq, ownAwaits_eq unnested, placings, List.map_cons, List.map_flatMap]
  rfl

theorem mem_placings {m : Placing Char} (mem : m ∈ file.placings verbose f) : m.made = m.meant ∨
    ∃ aw ∈ f.decl.awaits, ∃ n,
      m.made.1 = (f.found (file.tokens f.file) aw).offset +
        (f.found (file.tokens f.file) aw).length ∧
      m.meant = ((file.closes f aw.at').offset + (file.closes f aw.at').length,
        (Emit.load verbose n (varsStrip (f.decl.saved aw)) (file.closes f aw.at').line).toList) ∧
      (f.found (file.tokens f.file) aw = file.closes f aw.at' → m.made = m.meant) := by
  rcases List.mem_cons.mp mem with rfl | mem
  · exact .inl rfl
  · obtain ⟨p, here, mem⟩ := List.mem_flatMap.mp mem
    simp only [SourceFunction.awaitEdits, List.zipWith_cons_cons, List.zipWith_nil_right,
      List.mem_cons, List.not_mem_nil, or_false] at mem
    rcases mem with rfl | rfl
    · exact .inl rfl
    · exact .inr ⟨p.1, List.fst_mem_of_mem_zipIdx here, p.2, rfl, rfl, fun same => by simp [same]⟩

section placings

variable (mem : f ∈ file.matched file.skipped) (unnested : ∀ aw ∈ f.decl.awaits, aw.nested = false)

include mem unnested

theorem placings_early : ∀ m ∈ file.placings verbose f, m.made = m.meant ∨ m.Early := by
  intro m here
  rcases mem_placings here with same | ⟨aw, await, n, made, meant, same⟩
  · exact .inl same
  · have own : aw ∈ f.decl.ownAwaits := ownAwaits_eq unnested ▸ await
    rcases found_or mem own with right | early
    · exact .inl (same right)
    · right
      have pos := file.nonempty _ _ ((matched_statements mem).semi aw own).1
      rw [Placing.Early, made, meant]
      simp only
      omega

theorem placings_ends : ∀ m ∈ file.placings verbose f, m.Early → m.meant.2 ≠ [] ∧
    ∃ as a back, file.contents f.file = as ++ a :: back ∧ m.meant.1 = as.length + 1 ∧
      m.meant.2.getLast? ≠ some a := by
  intro m here early
  rcases mem_placings here with same | ⟨aw, await, n, _, meant, _⟩
  · rw [Placing.Early, same] at early
    exact absurd early (Nat.lt_irrefl _)
  · have own : aw ∈ f.decl.ownAwaits := ownAwaits_eq unnested ▸ await
    obtain ⟨closes, semi⟩ := (matched_statements mem).semi aw own
    have pos := file.nonempty _ _ closes
    obtain ⟨lt, char⟩ := List.getElem?_eq_some_iff.mp (file.semicolon _ _ closes semi)
    have last : (Emit.load verbose n (varsStrip (f.decl.saved aw))
        (file.closes f aw.at').line).toList.getLast? = some '\n' := by
      rw [Emit.load, String.toList_append]
      exact List.getLast?_concat
    have split := (List.take_append_drop ((file.closes f aw.at').offset +
      (file.closes f aw.at').length - 1) (file.contents f.file)).symm
    rw [List.drop_eq_getElem_cons lt, char] at split
    rw [meant]
    refine ⟨fun none => ?_, _, ';', _, split, ?_, ?_⟩
    · simp only at none
      rw [none] at last
      cases last
    · rw [List.length_take, Nat.min_eq_left (Nat.le_of_lt lt)]
      simp only
      omega
    · rw [last]
      decide

omit mem in
theorem placings_places : ∀ m ∈ file.placings verbose f, f.OwnPlace (file.closes f) m.meant.1 := by
  intro m here
  have meant : m.meant ∈ f.expects (file.closes f) verbose := by
    rw [← placings_meant unnested]
    exact List.mem_map_of_mem here
  exact expects_places f (file.closes f) _ meant

theorem placings_apart : (file.placings verbose f).Pairwise fun m n =>
    n.Early → m.meant.1 ≠ n.meant.1 := by
  have statements := matched_statements mem
  have own := ownAwaits_eq unnested
  have never {e : Nat × List Char} : ¬ (⟨e, e⟩ : Placing Char).Early := Nat.lt_irrefl _
  have ahead : (f.decl.awaits.zipIdx 1).Pairwise fun p q =>
      (file.closes f p.1.at').offset + (file.closes f p.1.at').length ≤
        (f.begins q.1.at').offset := by
    have ordered := statements.ordered
    rw [own, ← List.zipIdx_map_fst 1 f.decl.awaits] at ordered
    exact List.pairwise_map.mp ordered
  refine List.pairwise_cons.mpr ⟨fun n mem' early => ?_, List.pairwise_flatMap.mpr ⟨?_, ?_⟩⟩
  · obtain ⟨p, here, mem'⟩ := List.mem_flatMap.mp mem'
    have await : p.1 ∈ f.decl.ownAwaits := own ▸ List.fst_mem_of_mem_zipIdx here
    have first := statements.first p.1 await
    have behind := statements.behind p.1 await
    simp only [SourceFunction.awaitEdits, List.zipWith_cons_cons, List.zipWith_nil_right,
      List.mem_cons, List.not_mem_nil, or_false] at mem'
    rcases mem' with rfl | rfl
    · exact absurd early never
    · simp only
      omega
  · intro p here
    have await : p.1 ∈ f.decl.ownAwaits := own ▸ List.fst_mem_of_mem_zipIdx here
    have behind := statements.behind p.1 await
    refine List.pairwise_cons.mpr ⟨fun n mem' _ => ?_, List.pairwise_singleton _ _⟩
    cases List.mem_singleton.mp mem'
    simp only
    omega
  · refine ahead.imp_of_mem fun {p q} hp hq le m hm n hn early => ?_
    have await : p.1 ∈ f.decl.ownAwaits := own ▸ List.fst_mem_of_mem_zipIdx hp
    have await' : q.1 ∈ f.decl.ownAwaits := own ▸ List.fst_mem_of_mem_zipIdx hq
    have behind := statements.behind p.1 await
    have behind' := statements.behind q.1 await'
    simp only [SourceFunction.awaitEdits, List.zipWith_cons_cons, List.zipWith_nil_right,
      List.mem_cons, List.not_mem_nil, or_false] at hm hn
    rcases hn with rfl | rfl
    · exact absurd early never
    · rcases hm with rfl | rfl
      · simp only
        omega
      · simp only
        omega

end placings

/-- The places of different functions. -/
theorem rewritten_apart (file : StatementFile) (fid : Nat) : (file.rewrittenIn fid).Pairwise
    fun f g => ∀ off, f.OwnPlace (file.closes f) off → ¬ g.OwnPlace (file.closes g) off := by
  have sub : (file.matched file.skipped).Sublist file.functions := by
    conv_rhs => rw [← List.zipIdx_map_fst 0 file.functions]
    exact List.filter_sublist.map Prod.fst
  refine (file.apart.sublist (List.filter_sublist.trans sub)).imp_of_mem fun {f g} hf hg apart => ?_
  obtain ⟨matched, here⟩ := mem_rewrittenIn.mp hf
  obtain ⟨matched', here'⟩ := mem_rewrittenIn.mp hg
  exact apart (mem_matched matched).2.1 (mem_matched matched').2.1 (here.trans here'.symm)

/-- Where the text is right, every edit is made where it is meant. -/
theorem InOrder.placed (h : file.InOrder verbose) (fid : Nat) :
    ∀ m ∈ (file.rewrittenIn fid).flatMap (file.placings verbose), m.made = m.meant := by
  have unnested {g : SourceFunction} (here : g ∈ file.rewrittenIn fid) :
      ∀ aw ∈ g.decl.awaits, aw.nested = false := h.unnested g (mem_rewrittenIn.mp here).1
  have made : ((file.rewrittenIn fid).flatMap (file.placings verbose)).map Placing.made =
      (file.asks verbose fid).flatten := by
    rw [List.map_flatMap, SourceFile.asks, ← List.flatMap_def]
    apply List.flatMap_congr
    intro g here
    obtain ⟨matched, same⟩ := mem_rewrittenIn.mp here
    rw [placings_made matched, same]
  have meant : ((file.rewrittenIn fid).flatMap (file.placings verbose)).map Placing.meant =
      (file.expects verbose fid).flatten := by
    rw [List.map_flatMap, expects, ← List.flatMap_def]
    apply List.flatMap_congr
    intro g here
    exact placings_meant (unnested here)
  have text := h.text fid
  rw [← made, ← meant] at text
  refine Placing.none_early ?_ (List.pairwise_flatMap.mpr ⟨?_, ?_⟩) ?_ text
  · intro m here
    obtain ⟨g, listed, here⟩ := List.mem_flatMap.mp here
    exact placings_early (mem_rewrittenIn.mp listed).1 (unnested listed) m here
  · intro g listed
    exact placings_apart (mem_rewrittenIn.mp listed).1 (unnested listed)
  · refine (file.rewritten_apart fid).imp_of_mem fun {g g'} hg hg' apart m hm n hn _ at' => ?_
    exact apart _ (placings_places (unnested hg) m hm)
      (at' ▸ placings_places (unnested hg') n hn)
  · intro m here early
    obtain ⟨g, listed, here⟩ := List.mem_flatMap.mp here
    obtain ⟨matched, at'⟩ := mem_rewrittenIn.mp listed
    exact at' ▸ placings_ends matched (unnested listed) m here early

theorem InOrder.undisturbed (h : file.InOrder verbose) :
    ∀ f ∈ file.matched file.skipped, ∀ aw ∈ f.decl.ownAwaits,
      f.found (file.tokens f.file) aw = file.closes f aw.at' := by
  intro f mem aw own
  refine (found_or mem own).resolve_right fun early => ?_
  have listed := own_await own
  rw [← List.zipIdx_map_fst 1 f.decl.awaits] at listed
  obtain ⟨p, here, rfl⟩ := List.mem_map.mp listed
  have moved := h.placed f.file _ (List.mem_flatMap.mpr ⟨f, mem_rewrittenIn.mpr ⟨mem, rfl⟩,
    List.mem_cons_of_mem _ (List.mem_flatMap.mpr ⟨p, here,
      List.mem_cons_of_mem _ List.mem_cons_self⟩)⟩)
  have places := congrArg Prod.fst moved
  have pos := file.nonempty _ _ ((matched_statements mem).semi p.1 own).1
  simp only at places
  omega

/-! ## What is enough -/

/-- Where nothing is nested and each semicolon is found, the edits are those that are meant. -/
theorem asks_expects (mem : f ∈ file.matched file.skipped)
    (unnested : ∀ aw ∈ f.decl.awaits, aw.nested = false)
    (found : ∀ aw ∈ f.decl.ownAwaits, f.found (file.tokens f.file) aw = file.closes f aw.at') :
    f.asks verbose (file.tokens f.file) = f.expects (file.closes f) verbose := by
  rw [← placings_made mem, ← placings_meant unnested]
  apply List.map_congr_left
  intro m here
  rcases mem_placings here with same | ⟨aw, await, _, _, _, same⟩
  · exact same
  · exact same (found aw (ownAwaits_eq unnested ▸ await))

theorem expects_apart (file : StatementFile) (verbose : Bool) (fid : Nat) :
    (file.expects verbose fid).Pairwise fun g h => ∀ e ∈ g, ∀ e' ∈ h, e.1 ≠ e'.1 := by
  refine List.pairwise_map.mpr ((file.rewritten_apart fid).imp ?_)
  intro f g apart e he e' he' same
  exact apart e.1 (expects_places f _ e he) (same ▸ expects_places g _ e' he')

theorem inOrder_of (same : ∀ f ∈ file.matched file.skipped,
    f.asks verbose (file.tokens f.file) = f.expects (file.closes f) verbose) :
    file.InOrder verbose := by
  refine in_order_textFor.mpr fun fid order perm => ?_
  have all : file.asks verbose fid = file.expects verbose fid := by
    apply List.map_congr_left
    intro f here
    obtain ⟨matched, at'⟩ := mem_rewrittenIn.mp here
    rw [← same f matched, at']
  rw [all] at perm
  apply (textFor_perm perm).mpr
  rw [insertions_perm perm.symm (file.expects_apart verbose fid)]

end StatementFile

theorem SourceFunction.OwnPlace.within {f : SourceFunction} {closes : Nat → Token} {off : Nat}
    (place : f.OwnPlace closes off) (low high : Nat)
    (brace : low ≤ f.brace.offset + f.brace.length ∧ f.brace.offset + f.brace.length ≤ high)
    (awaits : ∀ aw ∈ f.decl.ownAwaits, low ≤ (f.begins aw.at').offset ∧
      (f.begins aw.at').offset ≤ high ∧ low ≤ (closes aw.at').offset + (closes aw.at').length ∧
      (closes aw.at').offset + (closes aw.at').length ≤ high) : low ≤ off ∧ off ≤ high := by
  rcases place with rfl | ⟨aw, own, rfl | rfl⟩
  · exact brace
  · exact ⟨(awaits aw own).1, (awaits aw own).2.1⟩
  · exact (awaits aw own).2.2

/-- A source with tokens in its main file only. -/
def StatementFile.ofMain (file : SourceFile) (closes : SourceFunction → Nat → Token)
    (others : ∀ fid, fid ≠ 1 → file.tokens fid = [])
    (sorted : (file.tokens 1).Pairwise fun s t => s.offset + s.length ≤ t.offset)
    (tokens : ∀ t ∈ file.tokens 1, 0 < t.length ∧
      (t.semi = true → (file.contents 1)[t.offset + t.length - 1]? = some ';'))
    (statements : ∀ f ∈ file.functions, f.Statements (file.tokens f.file) (closes f))
    (apart : file.functions.Pairwise fun f g =>
      ∀ off, f.OwnPlace (closes f) off → ¬ g.OwnPlace (closes g) off) : StatementFile where
  toSourceFile := file
  closes := closes
  sorted := by
    intro fid
    by_cases main : fid = 1
    · exact main ▸ sorted
    · rw [others fid main]
      exact .nil
  nonempty := by
    intro fid t mem
    by_cases main : fid = 1
    · subst main
      exact (tokens t mem).1
    · rw [others fid main] at mem
      cases mem
  semicolon := by
    intro fid t mem
    by_cases main : fid = 1
    · subst main
      exact (tokens t mem).2
    · rw [others fid main] at mem
      cases mem
  statements f mem _ := statements f mem
  apart := apart.imp fun apart _ _ _ => apart

/-- The semicolons of `co_await b();` and `co_await a();`. -/
def nestedCloses (f : SourceFunction) (_ : Nat) : Token :=
  if f.brace.offset = 14 then ⟨28, 1, true, 1⟩ else ⟨69, 1, true, 1⟩

theorem nested_statements : ∀ f ∈ nestedFile.functions,
    f.Statements (nestedFile.tokens f.file) (nestedCloses f) := by
  have semi : ∀ f ∈ nestedFile.functions, ∀ aw ∈ f.decl.ownAwaits,
      nestedCloses f aw.at' ∈ nestedFile.tokens f.file ∧ (nestedCloses f aw.at').semi = true := by
    decide
  have first : ∀ f ∈ nestedFile.functions, ∀ aw ∈ f.decl.ownAwaits,
      f.brace.offset + f.brace.length ≤ (f.begins aw.at').offset := by decide
  have behind : ∀ f ∈ nestedFile.functions, ∀ aw ∈ f.decl.ownAwaits,
      (f.begins aw.at').offset ≤ (f.ends aw.at').offset ∧
        (f.ends aw.at').offset < (nestedCloses f aw.at').offset := by decide
  have ordered : ∀ f ∈ nestedFile.functions, f.decl.ownAwaits.Pairwise fun a b =>
      (nestedCloses f a.at').offset + (nestedCloses f a.at').length ≤ (f.begins b.at').offset := by
    decide
  exact fun f mem => ⟨semi f mem, first f mem, behind f mem, ordered f mem⟩

theorem nested_apart : nestedFile.functions.Pairwise fun f g =>
    ∀ off, f.OwnPlace (nestedCloses f) off → ¬ g.OwnPlace (nestedCloses g) off := by
  refine List.pairwise_pair.mpr fun off outer inner => ?_
  have before : 15 ≤ off ∧ off ≤ 29 := outer.within 15 29 (by decide) (by decide)
  have behind : 56 ≤ off ∧ off ≤ 70 := inner.within 56 70 (by decide) (by decide)
  omega

/-- The local class with a coroutine of its own. -/
def nestedStatements : StatementFile :=
  .ofMain nestedFile nestedCloses (fun _ other => if_neg other) (by decide) (by decide)
    nested_statements nested_apart

def hiddenCoro : SourceFunction :=
  ⟨⟨[], .coawait .nil .nil⟩, true, false, "ser_ctx<>", 1, ⟨14, 1, false, 1⟩,
    fun _ => ⟨16, 8, false, 1⟩, fun _ => ⟨25, 1, false, 1⟩⟩

/-- `ser_ctx<> f() { co_await x` and, on lines of their own, `#if 0`, `;`, `#endif` and `; }` -/
def hiddenFile : SourceFile where
  contents fid :=
    if fid = 1 then "ser_ctx<> f() \x7b co_await x\n#if 0\n;\n#endif\n; \x7d\n".toList else []
  tokens fid := if fid = 1 then
    [⟨14, 1, false, 1⟩, ⟨16, 8, false, 1⟩, ⟨25, 1, false, 1⟩, ⟨27, 1, false, 2⟩, ⟨28, 2, false, 2⟩,
      ⟨31, 1, false, 2⟩, ⟨33, 1, true, 3⟩, ⟨35, 1, false, 4⟩, ⟨36, 5, false, 4⟩, ⟨42, 1, true, 5⟩,
      ⟨44, 1, false, 5⟩] else []
  functions := [hiddenCoro]
  inside := by
    intro fid
    by_cases h : fid = 1
    · simp only [if_pos h]
      decide
    · simp [h]
  brace := by decide
  begins := by decide
  semi := by decide

def hiddenStatements : StatementFile :=
  .ofMain hiddenFile (fun _ _ => ⟨42, 1, true, 5⟩) (fun _ other => if_neg other) (by decide)
    (by decide)
    (fun f mem => List.mem_singleton.mp mem ▸ ⟨by decide, by decide, by decide, by decide⟩)
    (List.pairwise_singleton _ _)

/-- The first semicolon is left out by `#if`. -/
example : ¬ hiddenStatements.InOrder false := fun h =>
  absurd (h.undisturbed hiddenCoro (List.mem_singleton_self _) ⟨1, [0], false⟩ (by decide))
    (by decide)

end Valor.Valet
