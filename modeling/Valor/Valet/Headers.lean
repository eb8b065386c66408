import Valor.Valet.Main
import Valor.Valet.MapOrder

/-! A header with coroutines is rewritten for each source that includes it. What comes out for
a file is decided by the file alone, wherever its functions stand among those of the source and
whatever number it has. -/
namespace Valor.Valet

open Edits

/-- The stages of a function when all callbacks have been called. -/
def FunctionDecl.stages (f : FunctionDecl) : List Stage :=
  f.awaits.map fun aw => ⟨aw, aw.blocks, f.vars.filter (accepts aw.at' aw.blocks)⟩

def Edit.insertion (e : Edit) : Nat × List Char := (e.off, e.text.toList)

/-- What is inserted for a function, and where. -/
def SourceFunction.asks (f : SourceFunction) (verbose : Bool) (tokens : List Token) :
    List (Nat × List Char) :=
  ((f.patch verbose tokens f.decl.stages).getD []).map Edit.insertion

/-- The functions in one of the files of a source. -/
def SourceFile.rewrittenIn (file : SourceFile) (fid : Nat) : List SourceFunction :=
  (file.matched file.skipped).filter fun f => f.file = fid

def SourceFile.asks (file : SourceFile) (verbose : Bool) (fid : Nat) :
    List (List (Nat × List Char)) :=
  (file.rewrittenIn fid).map fun f => f.asks verbose (file.tokens fid)

/-- What comes out for a file when the edits are made in this order. -/
def SourceFile.textFor (file : SourceFile) (fid : Nat) (order : List (List (Nat × List Char))) :
    Option (List Char) :=
  if order = [] then none else some (weave (insertions order.flatten) (file.contents fid))

/-- What may come out for a file: the map of the source is gone through in some order. -/
def SourceFile.Outcome (file : SourceFile) (verbose : Bool) (fid : Nat)
    (text : Option (List Char)) : Prop :=
  ∃ stages : Stages, stages.Perm (file.collected verbose).stages ∧
    ({ file.collected verbose with stages }.handleEndSource file).map
      (fun r : Valet × Output => r.2 fid) = some text

/-- The same function, in files that may have different numbers. -/
structure SourceFunction.Same (f g : SourceFunction) : Prop where
  decl : f.decl = g.decl
  returnType : f.returnType = g.returnType
  brace : f.brace = g.brace
  begins : ∀ aw ∈ f.decl.awaits, f.begins aw.at' = g.begins aw.at'
  ends : ∀ aw ∈ f.decl.awaits, f.ends aw.at' = g.ends aw.at'

/-- File `i` of one source reads as file `j` of another. -/
structure ReadsAs (file : SourceFile) (i : Nat) (file' : SourceFile) (j : Nat) : Prop where
  contents : file.contents i = file'.contents j
  tokens : file.tokens i = file'.tokens j
  functions : List.Forall₂ SourceFunction.Same (file.rewrittenIn i) (file'.rewrittenIn j)

/-! ## All stages -/

section stages

variable {f : FunctionDecl} {stages : Stages}

theorem stages_awaits {st : Stage} (mem : st ∈ f.stages) : st.aw ∈ f.awaits := by
  obtain ⟨aw, await, rfl⟩ := List.mem_map.mp mem
  exact await

theorem modify_append {i : Nat} (fresh : i ∉ stages.map Prod.fst)
    (change : List Stage → List Stage) (later : Stages) :
    Stages.modify i change (stages ++ later) = stages ++ later.modify i change := by
  induction stages with
  | nil => rfl
  | cons entry stages ih =>
    rw [List.map_cons, List.mem_cons, not_or] at fresh
    simp only [List.cons_append, Stages.modify, if_neg (Ne.symm fresh.1), ih fresh.2]

theorem foldl_run_append {reports : List MatchResult}
    (fresh : ∀ r ∈ reports, r.f ∉ stages.map Prod.fst) (later : Stages) :
    reports.foldl run (stages ++ later) = stages ++ reports.foldl run later := by
  induction reports generalizing later with
  | nil => rfl
  | cons r reports ih =>
    rw [List.foldl_cons, run, modify_append (fresh r List.mem_cons_self),
      ih fun r mem => fresh r (List.mem_cons_of_mem _ mem)]
    rfl

theorem matches_f {i : Nat} {r : MatchResult} (mem : r ∈ f.matches' i) : r.f = i := by
  obtain ⟨aw, _, here⟩ := List.mem_flatMap.mp mem
  split at here
  · rw [List.mem_singleton.mp here]
  · obtain ⟨v, _, rfl⟩ := List.mem_map.mp here
    rfl

theorem matches_ne_nil (i : Nat) (awaits : f.awaits ≠ []) : f.matches' i ≠ [] := by
  obtain ⟨aw, own⟩ := List.exists_mem_of_ne_nil _ awaits
  intro none
  have nothing := List.flatMap_eq_nil_iff.mp none aw own
  split at nothing
  · cases nothing
  · rename_i some'
    exact some' (List.map_eq_nil_iff.mp nothing)

theorem get_collect (f : FunctionDecl) (i : Nat) : (collect (f.matches' i)).get i = f.stages := by
  have done := collect_run i (f.matches' i)
  have own : ∀ st ∈ (collect (f.matches' i)).get i,
      st = ⟨st.aw, st.aw.blocks, f.vars.filter (accepts st.aw.at' st.aw.blocks)⟩ := by
    intro st mem
    have await : st.aw ∈ f.awaits := collect_awaits i f ▸ List.mem_map_of_mem mem
    have vars := done.vars st mem
    rw [reported_matches, if_pos ⟨rfl, await⟩] at vars
    rw [← vars, ← done.scope st mem]
  calc (collect (f.matches' i)).get i
    _ = ((collect (f.matches' i)).get i).map fun st =>
        ⟨st.aw, st.aw.blocks, f.vars.filter (accepts st.aw.at' st.aw.blocks)⟩ := by
      conv_lhs => rw [← List.map_id ((collect (f.matches' i)).get i)]
      exact List.map_congr_left own
    _ = f.stages := by
      rw [FunctionDecl.stages, ← collect_awaits i f, List.map_map]
      rfl

theorem collect_one (i : Nat) (awaits : f.awaits ≠ []) :
    collect (f.matches' i) = [(i, f.stages)] := by
  have key : ∀ entry ∈ collect (f.matches' i), entry.1 = i := by
    intro entry mem
    obtain ⟨⟨r, here, same⟩, _⟩ := collect_entries _ entry mem
    exact same.symm.trans (matches_f here)
  have once := MapOrder.collect_keys (f.matches' i)
  obtain ⟨entry, rest, all⟩ :=
    List.exists_cons_of_ne_nil (collect_ne_nil (matches_ne_nil i awaits))
  rw [all] at key once
  have single : rest = [] := by
    apply List.eq_nil_iff_forall_not_mem.mpr
    intro entry' mem
    apply (List.nodup_cons.mp once).1
    rw [key entry List.mem_cons_self, ← key entry' (List.mem_cons_of_mem _ mem)]
    exact List.mem_map_of_mem mem
  have first : entry = (i, f.stages) := by
    apply Prod.ext (key entry List.mem_cons_self)
    rw [← get_collect f i, all, Stages.get, if_pos (key entry List.mem_cons_self)]
  rw [all, first, single]

/-- The map has the functions in the order of the file, each with its stages. -/
theorem collect_eq {u : TranslationUnit} (awaits : ∀ f ∈ u, f.awaits ≠ []) :
    collect u.matches' = u.zipIdx.map fun p => (p.2, p.1.stages) := by
  induction u using List.reverseRecOn with
  | nil => rfl
  | append_singleton u f ih =>
    have before := ih fun g mem => awaits g (List.mem_append_left _ mem)
    have last := collect_one u.length (awaits f (by simp))
    have reports : TranslationUnit.matches' (u ++ [f]) =
        TranslationUnit.matches' u ++ f.matches' u.length := by
      simp [TranslationUnit.matches', List.zipIdx_append]
    have fresh : ∀ r ∈ f.matches' u.length,
        r.f ∉ (collect (TranslationUnit.matches' u)).map Prod.fst := by
      intro r mem here
      rw [matches_f mem, before, List.map_map] at here
      obtain ⟨p, listed, same⟩ := List.mem_map.mp here
      have lt := List.snd_lt_of_mem_zipIdx listed
      simp only [Function.comp_apply] at same
      omega
    have joined := foldl_run_append fresh []
    rw [List.append_nil] at joined
    calc collect (TranslationUnit.matches' (u ++ [f]))
      _ = (f.matches' u.length).foldl run (collect (TranslationUnit.matches' u)) := by
        rw [reports, collect, List.foldl_append]
        rfl
      _ = collect (TranslationUnit.matches' u) ++ collect (f.matches' u.length) := joined
      _ = (u ++ [f]).zipIdx.map fun p => (p.2, p.1.stages) := by
        rw [before, last]
        simp [List.zipIdx_append]

end stages

/-! ## The text of one file -/

section text

variable {file : SourceFile} {verbose : Bool} {f g : SourceFunction} {tokens : List Token}

theorem patch_file {ss : List Stage} {edits : List Edit}
    (asked : f.patch verbose tokens ss = some edits) : ∀ e ∈ edits, e.file = f.file := by
  intro e mem
  exact ((SourceFunction.patch_places asked e.file e.off).mp ⟨e, mem, rfl, rfl⟩).1.symm

theorem patch_stages (mem : f ∈ file.matched file.skipped) (verbose : Bool) : ∃ own,
    f.patch verbose (file.tokens f.file) f.decl.stages = some own ∧ own ≠ [] := by
  obtain ⟨listed, coroutine, _⟩ := mem_matched mem
  obtain ⟨own, patched, some', _⟩ := file.patch_spec verbose listed coroutine
    fun st here => stages_awaits here
  exact ⟨own, patched, some'⟩

theorem asks_ne_nil (mem : f ∈ file.matched file.skipped) (verbose : Bool) :
    f.asks verbose (file.tokens f.file) ≠ [] := by
  obtain ⟨own, patched, some'⟩ := patch_stages mem verbose
  rw [SourceFunction.asks, patched, Option.getD_some]
  exact fun none => some' (List.map_eq_nil_iff.mp none)

theorem collected_stages (file : SourceFile) (verbose : Bool) :
    (file.collected verbose).stages =
      (file.matched file.skipped).zipIdx.map fun p => (p.2, p.1.decl.stages) := by
  let u : TranslationUnit := (file.matched file.skipped).map SourceFunction.decl
  have awaits : ∀ f ∈ u, f.awaits ≠ [] := by
    intro f mem
    obtain ⟨g, here, rfl⟩ := List.mem_map.mp mem
    exact (mem_matched here).2.2
  calc (file.collected verbose).stages
    _ = collect (TranslationUnit.matches' u) := rfl
    _ = u.zipIdx.map fun p => (p.2, p.1.stages) := collect_eq awaits
    _ = _ := by
      rw [List.zipIdx_map, List.map_map]
      rfl

/-- The entry of a function asks for edits in the function's file only. -/
theorem inFile_entry {k : Nat} (found : (file.matched file.skipped)[k]? = some f) (fid : Nat) :
    inFile fid (entryEdits (file.collected verbose) file (k, f.decl.stages)) =
      if f.file = fid then f.asks verbose (file.tokens fid) else [] := by
  obtain ⟨own, patched, _⟩ := patch_stages (List.mem_of_getElem? found) verbose
  have entry : entryEdits (file.collected verbose) file (k, f.decl.stages) = own := by
    have skip : (file.collected verbose).skip = file.skipped := rfl
    have verbose' : (file.collected verbose).verbose = verbose := rfl
    simp only [entryEdits, edits, skip, verbose', found, patched, Option.bind_eq_bind,
      Option.bind_some, pure, List.append_nil, Option.getD_some]
  rw [entry, inFile]
  split
  · rename_i same
    subst same
    have all : own.filter (fun e => e.file = f.file) = own :=
      List.filter_eq_self.mpr fun e mem => decide_eq_true (patch_file patched e mem)
    rw [all, SourceFunction.asks, patched, Option.getD_some]
    rfl
  · rename_i other
    have nothing : own.filter (fun e => e.file = fid) = [] := by
      apply List.filter_eq_nil_iff.mpr
      intro e mem here
      exact other ((patch_file patched e mem).symm.trans (of_decide_eq_true here))
    rw [nothing, List.map_nil]

/-- Of all entries those of the functions in a file ask for something there. -/
theorem entries_asks (file : SourceFile) (verbose : Bool) (fid : Nat) :
    ((file.collected verbose).stages.map fun entry =>
      inFile fid (entryEdits (file.collected verbose) file entry)).filter (· ≠ []) =
        file.asks verbose fid := by
  have entries : (file.collected verbose).stages.map (fun entry =>
      inFile fid (entryEdits (file.collected verbose) file entry)) =
      (file.matched file.skipped).map fun f =>
        if f.file = fid then f.asks verbose (file.tokens fid) else [] := by
    rw [collected_stages, List.map_map]
    conv_rhs => rw [← List.zipIdx_map_fst 0 (file.matched file.skipped), List.map_map]
    apply List.map_congr_left
    intro p mem
    exact inFile_entry (List.mem_zipIdx_iff_getElem?.mp mem) fid
  rw [entries, List.filter_map, SourceFile.asks, SourceFile.rewrittenIn]
  have own : ∀ f ∈ file.matched file.skipped,
      decide ((if f.file = fid then f.asks verbose (file.tokens fid) else []) ≠ []) =
        decide (f.file = fid) := by
    intro f mem
    by_cases here : f.file = fid
    · subst here
      simp [asks_ne_nil mem verbose]
    · simp [here]
  have kept : (file.matched file.skipped).filter ((fun edits => decide (edits ≠ [])) ∘ fun f =>
      if f.file = fid then f.asks verbose (file.tokens fid) else []) =
      (file.matched file.skipped).filter fun f => f.file = fid := List.filter_congr own
  rw [kept]
  apply List.map_congr_left
  intro f mem
  exact if_pos (of_decide_eq_true (List.mem_filter.mp mem).2)

theorem order_textFor {stages : Stages} (perm : stages.Perm (file.collected verbose).stages)
    (fid : Nat) :
    ({ file.collected verbose with stages }.handleEndSource file).map
      (fun r : Valet × Output => r.2 fid) = some (file.textFor fid ((stages.map fun entry =>
        inFile fid (entryEdits (file.collected verbose) file entry)).filter (· ≠ []))) := by
  let g (entry : Nat × List Stage) := inFile fid (entryEdits (file.collected verbose) file entry)
  have out := congrArg (Option.map fun out : Output => out fid)
    (MapOrder.order_text file verbose perm)
  rw [Option.map_map, Option.map_some] at out
  refine Eq.trans out (congrArg some ?_)
  have touched : (∃ entry ∈ (file.collected verbose).stages,
      ∃ e ∈ entryEdits (file.collected verbose) file entry, e.file = fid) ↔
      (stages.map g).filter (· ≠ []) ≠ [] := by
    rw [Ne, List.filter_eq_nil_iff]
    simp only [List.mem_map, forall_exists_index, and_imp, forall_apply_eq_imp_iff₂, not_forall,
      exists_prop, decide_eq_true_eq, not_not, perm.mem_iff]
    refine exists_congr fun entry => and_congr_right fun _ => ?_
    simp only [g, inFile, List.map_eq_nil_iff, List.filter_eq_nil_iff, decide_eq_true_eq,
      not_forall, not_not, exists_prop]
  have joined : stages.flatMap g = ((stages.map g).filter (· ≠ [])).flatten := by
    rw [List.flatten_filter_ne_nil, List.flatMap_def]
  unfold SourceFile.textFor
  by_cases some' : (stages.map g).filter (· ≠ []) = []
  · rw [if_pos some']
    exact if_neg fun here => touched.mp here some'
  · rw [if_neg some', ← joined]
    exact if_pos (touched.mpr some')

/-- The orders of a whole source come to those of the functions in a file. -/
theorem outcome_iff {fid : Nat} {text : Option (List Char)} : file.Outcome verbose fid text ↔
    ∃ order, order.Perm (file.asks verbose fid) ∧ text = file.textFor fid order := by
  rw [← entries_asks]
  constructor
  · rintro ⟨stages, perm, out⟩
    rw [order_textFor perm] at out
    exact ⟨_, (perm.map _).filter _, (Option.some.inj out).symm⟩
  · rintro ⟨order, perm, rfl⟩
    obtain ⟨stages, perm', same⟩ := exists_order _ _ perm
    exact ⟨stages, perm', by rw [order_textFor perm', same]⟩

theorem process_textFor {v : Valet} {out : Output}
    (done : (new verbose).process file = some (v, out)) (fid : Nat) :
    out fid = file.textFor fid (file.asks verbose fid) := by
  have own := order_textFor (List.Perm.refl (file.collected verbose).stages) fid
  have ends : { file.collected verbose with
      stages := (file.collected verbose).stages }.handleEndSource file =
      (new verbose).process file := rfl
  rw [ends, done, entries_asks] at own
  exact Option.some.inj own

end text

/-! ## A file in two sources -/

section same

variable {f g : SourceFunction} {file file' : SourceFile} {i j : Nat} {verbose : Bool}

theorem patchStages_same (same : f.Same g) (verbose : Bool) (tokens : List Token)
    {ss : List Stage} (awaits : ∀ st ∈ ss, st.aw ∈ f.decl.awaits) (n : Nat) :
    (f.patchStages verbose tokens n ss).map (List.map Edit.insertion) =
      (g.patchStages verbose tokens n ss).map (List.map Edit.insertion) := by
  induction ss generalizing n with
  | nil => rfl
  | cons st ss ih =>
    have later := ih (fun st mem => awaits st (List.mem_cons_of_mem _ mem)) (n + 1)
    have await := awaits st List.mem_cons_self
    have first : (f.patchStage verbose tokens n st).map (List.map Edit.insertion) =
        (g.patchStage verbose tokens n st).map (List.map Edit.insertion) := by
      simp only [SourceFunction.patchStage, same.begins st.aw await, same.ends st.aw await,
        Option.map_map]
      rfl
    have joined (h : SourceFunction) : (h.patchStages verbose tokens n (st :: ss)).map
        (List.map Edit.insertion) =
        ((h.patchStage verbose tokens n st).map (List.map Edit.insertion)).bind fun edits =>
          ((h.patchStages verbose tokens (n + 1) ss).map (List.map Edit.insertion)).map
            fun rest => edits ++ rest := by
      simp only [SourceFunction.patchStages, Option.bind_eq_bind, pure]
      cases h.patchStage verbose tokens n st with
      | none => rfl
      | some edits =>
        cases h.patchStages verbose tokens (n + 1) ss with
        | none => rfl
        | some rest => simp
    rw [joined, joined, first, later]

theorem asks_same (same : f.Same g) (verbose : Bool) (tokens : List Token) :
    f.asks verbose tokens = g.asks verbose tokens := by
  have stages : (f.patchStages verbose tokens 1 f.decl.stages).map (List.map Edit.insertion) =
      (g.patchStages verbose tokens 1 f.decl.stages).map (List.map Edit.insertion) :=
    patchStages_same same verbose tokens (fun st here => stages_awaits here) 1
  have whole (h : SourceFunction) (ss : List Stage) :
      ((h.patch verbose tokens ss).getD []).map Edit.insertion =
        (((h.patchStages verbose tokens 1 ss).map (List.map Edit.insertion)).map fun edits =>
          (h.brace.offset + h.brace.length, (Emit.preamble verbose h.returnType ss.length
            h.brace.line).toList) :: edits).getD [] := by
    unfold SourceFunction.patch
    cases h.patchStages verbose tokens 1 ss <;> rfl
  unfold SourceFunction.asks
  rw [whole, whole, ← same.decl, stages, same.brace, same.returnType]

theorem asks_readsAs (reads : ReadsAs file i file' j) (verbose : Bool) :
    file.asks verbose i = file'.asks verbose j := by
  unfold SourceFile.asks
  rw [reads.tokens]
  have functions := reads.functions
  generalize file.rewrittenIn i = fs at functions
  generalize file'.rewrittenIn j = gs at functions
  induction functions with
  | nil => rfl
  | cons same _ ih => rw [List.map_cons, List.map_cons, asks_same same, ih]

theorem textFor_readsAs (reads : ReadsAs file i file' j) (order : List (List (Nat × List Char))) :
    file.textFor i order = file'.textFor j order := by
  unfold SourceFile.textFor
  rw [reads.contents]

theorem textFor_perm {order order' : List (List (Nat × List Char))} (perm : order.Perm order') :
    file.textFor i order = file.textFor i order' ↔
      weave (insertions order.flatten) (file.contents i) =
        weave (insertions order'.flatten) (file.contents i) := by
  unfold SourceFile.textFor
  by_cases none : order' = []
  · subst none
    rw [List.perm_nil.mp perm]
    simp
  · have some' : order ≠ [] := fun empty => none (perm.symm.trans (empty ▸ .refl _)).eq_nil
    rw [if_neg none, if_neg some', Option.some.injEq]

/-- Two sources always leave the same text for a file that they read as the same, just when at
every place the insertions for any two functions of that file commute. -/
theorem same_text_iff (reads : ReadsAs file i file' j) (verbose : Bool) :
    (∀ text text', file.Outcome verbose i text → file'.Outcome verbose j text' → text = text') ↔
      (file.asks verbose i).Pairwise fun a b => ∀ off ≤ (file.contents i).length,
        insertions a off ++ insertions b off = insertions b off ++ insertions a off := by
  have commute := weave_any_order_iff id (file.asks verbose i) (file.contents i)
  simp only [List.flatMap_id, id_eq] at commute
  rw [← commute]
  constructor
  · intro same order perm
    have own := same _ _ (outcome_iff.mpr ⟨order, perm, rfl⟩)
      (outcome_iff.mpr ⟨_, List.Perm.refl _, rfl⟩)
    rw [← asks_readsAs reads, ← textFor_readsAs reads] at own
    exact (textFor_perm perm).mp own
  · rintro same text text' out out'
    obtain ⟨order, perm, rfl⟩ := outcome_iff.mp out
    obtain ⟨order', perm', rfl⟩ := outcome_iff.mp out'
    rw [← asks_readsAs reads] at perm'
    rw [← textFor_readsAs reads]
    exact (textFor_perm (perm.trans perm'.symm)).mpr
      ((same order perm).trans (same order' perm').symm)

end same

/-! Two sources that include one header. -/

def coroText (name : Char) : List Char :=
  "ser_ctx<> ".toList ++ name :: "() { co_await remote_op(); }\n".toList

def coroIn (fid : Nat) : SourceFunction :=
  ⟨⟨[], .coawait .nil .nil⟩, true, false, "ser_ctx<>", fid, ⟨14, 1, false, 1⟩,
    fun _ => ⟨16, 8, false, 1⟩, fun _ => ⟨35, 1, false, 1⟩⟩

/-- `#include "f.h"` -/
def oneHeader : SourceFile where
  contents fid := if fid = 1 then "#include \"f.h\"\n".toList else
    if fid = 2 then coroText 'f' else []
  tokens fid := if fid = 1 then [⟨0, 1, false, 1⟩, ⟨1, 7, false, 1⟩, ⟨9, 5, false, 1⟩] else
    if fid = 2 then coroFile.tokens 1 else []
  functions := [coroIn 2]
  inside := by
    intro fid
    by_cases main : fid = 1
    · simp only [if_pos main]
      decide
    · by_cases header : fid = 2
      · simp only [if_neg main, if_pos header]
        decide
      · simp [main, header]
  brace := by decide
  begins := by decide
  semi := by decide

/-- `#include "g.h"` and `#include "f.h"` -/
def twoHeaders : SourceFile where
  contents fid := if fid = 1 then "#include \"g.h\"\n#include \"f.h\"\n".toList else
    if fid = 2 then coroText 'g' else if fid = 3 then coroText 'f' else []
  tokens fid := if fid = 1 then [⟨0, 1, false, 1⟩, ⟨1, 7, false, 1⟩, ⟨9, 5, false, 1⟩,
      ⟨15, 1, false, 2⟩, ⟨16, 7, false, 2⟩, ⟨24, 5, false, 2⟩] else
    if fid = 2 then coroFile.tokens 1 else if fid = 3 then coroFile.tokens 1 else []
  functions := [coroIn 2, coroIn 3]
  inside := by
    intro fid
    by_cases main : fid = 1
    · simp only [if_pos main]
      decide
    · by_cases header : fid = 2
      · simp only [if_neg main, if_pos header]
        decide
      · by_cases other : fid = 3
        · simp only [if_neg main, if_neg header, if_pos other]
          decide
        · simp [main, header, other]
  brace := by decide
  begins := by decide
  semi := by decide

theorem readsAs_headers : ReadsAs oneHeader 2 twoHeaders 3 where
  contents := rfl
  tokens := rfl
  functions := .cons ⟨rfl, rfl, rfl, fun _ _ => rfl, fun _ _ => rfl⟩ .nil

theorem same_text_headers : oneHeader.rewrittenIn 2 ≠ [] ∧ ∀ text text',
    oneHeader.Outcome false 2 text → twoHeaders.Outcome false 3 text' → text = text' :=
  ⟨List.cons_ne_nil _ _,
    (same_text_iff readsAs_headers false).mpr (List.pairwise_singleton _ _)⟩

/-! ## Sources with common headers -/

/-- A file that is rewritten for two sources, or twice for one, is read each time as the same. -/
def Consistent (env : Environment) (sources : Set Path) (fs : FileSystem) : Prop :=
  ∀ s ∈ sources, ∀ s' ∈ sources, ∀ input input' i j p,
    env.parse fs s = some input → env.parse fs s' = some input' →
    input.realPath i = some p → input'.realPath j = some p →
    input.source.rewrittenIn i ≠ [] → input'.source.rewrittenIn j ≠ [] →
    ReadsAs input.source i input'.source j

section make

variable {env : Environment} {verbose : Bool} {sources : Set Path} {fs : FileSystem}
  {order : List Path} {s p : Path} {input : Input} {fid : Nat} {text : List Char}

theorem textFor_some {file : SourceFile}
    (some' : file.textFor fid (file.asks verbose fid) = some text) : file.rewrittenIn fid ≠ [] := by
  intro none
  have nothing : file.asks verbose fid = [] := by rw [SourceFile.asks, none, List.map_nil]
  rw [SourceFile.textFor, if_pos nothing] at some'
  contradiction

theorem mem_touched (file : SourceFile) (verbose : Bool) (fid : Nat) :
    fid ∈ file.touched verbose ↔ file.rewrittenIn fid ≠ [] := by
  obtain ⟨edits, buffers, _, _, done⟩ := process_new verbose file
  have text := process_textFor done fid
  rw [← touched_spec done fid, text]
  unfold SourceFile.textFor SourceFile.asks
  by_cases none : file.rewrittenIn fid = []
  · simp [none]
  · simp [none]

theorem rewritten_textFor (here : env.rewritten verbose fs s p = some text) :
    ∃ input fid, env.parse fs s = some input ∧ input.realPath fid = some p ∧
      input.source.textFor fid (input.source.asks verbose fid) = some text := by
  obtain ⟨input, fid, v, out, read, done, buffer, known⟩ := rewritten_some here
  exact ⟨input, fid, read, known, (process_textFor done fid).symm.trans buffer⟩

theorem rewritten_ne_none (source : s ≠ ['-']) (read : env.parse fs s = some input)
    (writable : Writable env input verbose) (known : input.realPath fid = some p)
    (here : input.source.rewrittenIn fid ≠ []) : env.rewritten verbose fs s p ≠ none := by
  obtain ⟨edits, buffers, _, _, done⟩ := process_new verbose input.source
  have key := (mem_touched input.source verbose fid).mpr here
  obtain ⟨text, buffer⟩ := Option.ne_none_iff_exists'.mp ((touched_spec done fid).mpr key)
  unfold Environment.rewritten Environment.job
  rw [main_eq read source writable done]
  apply Builds.written_ne_none (v := text)
  exact List.mem_map.mpr ⟨(fid, text), (mem_inOrder done fid text).mpr buffer, by rw [known]; rfl⟩

/-- Every run that rewrites the file comes to this text. -/
theorem rewritten_agree (consistent : Consistent env sources fs) (mem : s ∈ sources)
    (read : env.parse fs s = some input) (known : input.realPath fid = some p)
    (own : input.source.rewrittenIn fid ≠ []) {s' : Path} (mem' : s' ∈ sources)
    (here : env.rewritten verbose fs s' p = some text) :
    input.source.textFor fid (input.source.asks verbose fid) = some text := by
  obtain ⟨input', fid', read', known', text'⟩ := rewritten_textFor here
  have reads := consistent s mem s' mem' input input' fid fid' p read read' known known' own
    (textFor_some text')
  rw [asks_readsAs reads, textFor_readsAs reads, text']

/-- Whatever the order of the runs: each file that is rewritten has its text, which is decided
by the file alone, as its output, and nothing else happens to the files. -/
theorem make_headers (unread : env.Unread sources) (consistent : Consistent env sources fs)
    (writable : ∀ s ∈ sources, s ≠ ['-'] ∧
      ∀ input, env.parse fs s = some input → Writable env input verbose)
    (all : ∀ s, s ∈ order ↔ s ∈ sources) :
    (∀ s ∈ sources, ∀ input fid p, env.parse fs s = some input → input.realPath fid = some p →
      input.source.rewrittenIn fid ≠ [] →
      Builds.build (env.job verbose) order fs (valetPath p) =
        input.source.textFor fid (input.source.asks verbose fid)) ∧
    ∀ q, (∀ s ∈ sources, ∀ input fid p, env.parse fs s = some input →
      input.realPath fid = some p → input.source.rewrittenIn fid ≠ [] → q ≠ valetPath p) →
      Builds.build (env.job verbose) order fs q = fs q := by
  rw [Builds.build_eq (layered unread) fun s mem => (all s).mp mem]
  constructor
  · intro s mem input fid p read known own
    obtain ⟨source, inputs⟩ := writable s mem
    obtain ⟨text, here⟩ := Option.ne_none_iff_exists'.mp
      (rewritten_ne_none source read (inputs input read) known own)
    have result := rewritten_agree consistent mem read known own mem here
    rw [Builds.write_apply, result, Builds.written_flatMap_some (v := text)]
    · rfl
    · intro s' mem' text' here'
      have result' := rewritten_agree consistent mem read known own ((all s').mp mem') here'
      exact Option.some.inj (result'.symm.trans result)
    · exact ⟨s, (all s).mpr mem, here⟩
  · intro q other
    rw [Builds.write_apply, Builds.written_flatMap_none]
    · rfl
    · intro s mem
      cases here : Builds.written (env.job verbose s fs) q with
      | none => rfl
      | some text =>
        obtain ⟨p, rfl⟩ := main_mem (Builds.written_mem here)
        obtain ⟨input, fid, read, known, result⟩ := rewritten_textFor here
        exact absurd rfl
          (other s ((all s).mp mem) input fid p read known (textFor_some result))

end make

section including

def includers : List Path := ["/a.cc".toList, "/b.cc".toList]

def headersOn : FileSystem := fun p =>
  if p = "/a.cc".toList then some (oneHeader.contents 1)
  else if p = "/b.cc".toList then some (twoHeaders.contents 1)
  else if p = "/f.h".toList then some (coroText 'f')
  else if p = "/g.h".toList then some (coroText 'g') else none

def oneAt (path : Path) : Input where
  source := oneHeader
  realPath fid := if fid = 1 then some path else if fid = 2 then some "/f.h".toList else none

def twoAt (path : Path) : Input where
  source := twoHeaders
  realPath fid := if fid = 1 then some path else if fid = 2 then some "/g.h".toList else
    if fid = 3 then some "/f.h".toList else none

def including : Environment where
  parse fs path :=
    if fs "/f.h".toList = some (coroText 'f') then
      if fs path = some (oneHeader.contents 1) then some (oneAt path)
      else if fs path = some (twoHeaders.contents 1) ∧ fs "/g.h".toList = some (coroText 'g') then
        some (twoAt path)
      else none
    else none
  parseCode fs code :=
    if fs "/f.h".toList = some (coroText 'f') ∧ code = oneHeader.contents 1 then some oneHeader
    else none
  opens _ := true

theorem including_unread : including.Unread {s | s ∈ includers} := by
  intro s mem fs fs' same
  have plain : ∀ p : Path, '_' ∉ p → fs p = fs' p := by
    intro p none
    apply same p
    rintro ⟨q, rfl⟩
    exact none (underscore_mem_valetPath q)
  have names : ∀ s ∈ includers, '_' ∉ s := by decide
  simp only [including, plain s (names s mem), plain "/f.h".toList (by decide),
    plain "/g.h".toList (by decide)]

theorem including_parse {fs : FileSystem} {s : Path} {input : Input}
    (read : including.parse fs s = some input) : input = oneAt s ∨ input = twoAt s := by
  simp only [including] at read
  split at read
  · split at read
    · exact .inl (Option.some.inj read).symm
    · split at read
      · exact .inr (Option.some.inj read).symm
      · cases read
  · cases read

theorem oneHeader_rewritten {fid : Nat} (some' : oneHeader.rewrittenIn fid ≠ []) : fid = 2 := by
  by_contra other
  apply some'
  apply List.filter_eq_nil_iff.mpr
  intro f mem here
  have listed : f ∈ [coroIn 2] := mem
  rw [List.mem_singleton.mp listed] at here
  exact other (of_decide_eq_true here).symm

theorem twoHeaders_rewritten {fid : Nat} (some' : twoHeaders.rewrittenIn fid ≠ []) :
    fid = 2 ∨ fid = 3 := by
  by_contra other
  apply some'
  apply List.filter_eq_nil_iff.mpr
  intro f mem here
  have listed : f ∈ [coroIn 2, coroIn 3] := mem
  rcases List.mem_pair.mp listed with rfl | rfl
  · exact other (.inl (of_decide_eq_true here).symm)
  · exact other (.inr (of_decide_eq_true here).symm)

theorem readsAs_refl (file : SourceFile) (fid : Nat) : ReadsAs file fid file fid where
  contents := rfl
  tokens := rfl
  functions := List.forall₂_same.mpr fun _ _ => ⟨rfl, rfl, rfl, fun _ _ => rfl, fun _ _ => rfl⟩

theorem including_consistent (sources : Set Path) (fs : FileSystem) :
    Consistent including sources fs := by
  intro s _ s' _ input input' i j p read read' known known' own own'
  have apart : "/g.h".toList ≠ "/f.h".toList := by decide
  rcases including_parse read with rfl | rfl
  · cases oneHeader_rewritten own
    rcases including_parse read' with rfl | rfl
    · cases oneHeader_rewritten own'
      exact readsAs_refl oneHeader 2
    · rcases twoHeaders_rewritten own' with rfl | rfl
      · exact absurd (Option.some.inj (known'.trans known.symm)) apart
      · exact readsAs_headers
  · rcases including_parse read' with rfl | rfl
    · cases oneHeader_rewritten own'
      rcases twoHeaders_rewritten own with rfl | rfl
      · exact absurd (Option.some.inj (known.trans known'.symm)) apart
      · exact ⟨rfl, rfl, .cons ⟨rfl, rfl, rfl, fun _ _ => rfl, fun _ _ => rfl⟩ .nil⟩
    · rcases twoHeaders_rewritten own with rfl | rfl <;>
        rcases twoHeaders_rewritten own' with rfl | rfl
      · exact readsAs_refl twoHeaders 2
      · exact absurd (Option.some.inj (known.trans known'.symm)) apart
      · exact absurd (Option.some.inj (known'.trans known.symm)) apart
      · exact readsAs_refl twoHeaders 3

theorem including_writable {fs : FileSystem} {s : Path} {input : Input}
    (read : including.parse fs s = some input) : Writable including input false := by
  intro fid mem
  rw [mem_touched] at mem
  rcases including_parse read with rfl | rfl
  · cases oneHeader_rewritten mem
    exact ⟨_, rfl, rfl⟩
  · rcases twoHeaders_rewritten mem with rfl | rfl
    · exact ⟨_, rfl, rfl⟩
    · exact ⟨_, rfl, rfl⟩

theorem make_headers_including :
    (∀ s ∈ includers, ∀ input fid p, including.parse headersOn s = some input →
      input.realPath fid = some p → input.source.rewrittenIn fid ≠ [] →
      Builds.build (including.job false) includers headersOn (valetPath p) =
        input.source.textFor fid (input.source.asks false fid)) ∧
    ∀ q, (∀ s ∈ includers, ∀ input fid p, including.parse headersOn s = some input →
      input.realPath fid = some p → input.source.rewrittenIn fid ≠ [] → q ≠ valetPath p) →
      Builds.build (including.job false) includers headersOn q = headersOn q := by
  have names : ∀ s ∈ includers, s ≠ ['-'] := by decide
  exact make_headers including_unread (including_consistent _ _)
    (fun s mem => ⟨names s mem, fun _ read => including_writable read⟩) fun _ => Iff.rfl

end including

end Valor.Valet
