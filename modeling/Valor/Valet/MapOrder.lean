import Valor.Lib.Reordering
import Valor.Valet.Selection

/-! The map from functions to stages is a hash map: `rewrite` may come to the functions in any
order. -/
namespace Valor.Valet

open Edits

/-- The object with the stages of a file, when `handleEndSource` is called. -/
def SourceFile.collected (file : SourceFile) (verbose : Bool) : Valet :=
  ((new verbose).handleBeginSource.handleDeclAttributes file).runMatches file

/-- What is written does not depend on the order in which the map is gone through. -/
def OrderFree (file : SourceFile) (verbose : Bool) : Prop :=
  ∀ stages : Stages, stages.Perm (file.collected verbose).stages →
    ({ file.collected verbose with stages }.handleEndSource file).map Prod.snd =
      ((file.collected verbose).handleEndSource file).map Prod.snd

/-- The edits of `rewrite` for one entry of the map. -/
def entryEdits (v : Valet) (file : SourceFile) (entry : Nat × List Stage) : List Edit :=
  (v.edits file [entry]).getD []

def inFile (fid : Nat) (edits : List Edit) : List (Nat × List Char) :=
  (edits.filter fun e => e.file = fid).map fun e => (e.off, e.text.toList)

/-- What the entry puts into file `fid` at `off`. -/
def textAt (v : Valet) (file : SourceFile) (fid off : Nat) (entry : Nat × List Stage) : List Char :=
  insertions (inFile fid (entryEdits v file entry)) off

/-- No two functions that are rewritten have a place in common. -/
def SourceFile.Apart (file : SourceFile) : Prop :=
  ∀ (i j : Nat) (f g : SourceFunction), i ≠ j → (file.matched file.skipped)[i]? = some f →
    (file.matched file.skipped)[j]? = some g → f.file = g.file →
      ∀ off, f.Place (file.tokens f.file) off → ¬ g.Place (file.tokens g.file) off

namespace MapOrder

variable {v : Valet} {file : SourceFile}

theorem inFile_flatMap {A : Type} (fid : Nat) (g : A → List Edit) (l : List A) :
    inFile fid (l.flatMap g) = l.flatMap fun a => inFile fid (g a) := by
  induction l with
  | nil => rfl
  | cons a l ih =>
    rw [List.flatMap_cons, List.flatMap_cons, ← ih]
    simp only [inFile, List.filter_append, List.map_append]

/-- The edits for the whole map are those for its entries. -/
theorem edits_flatMap {stages : Stages}
    (known : ∀ entry ∈ stages, ∃ own, v.edits file [entry] = some own) :
    v.edits file stages = some (stages.flatMap (entryEdits v file)) := by
  induction stages with
  | nil => rfl
  | cons entry stages ih =>
    obtain ⟨own, here⟩ := known entry List.mem_cons_self
    have rest := ih fun entry mem => known entry (List.mem_cons_of_mem _ mem)
    have first : entryEdits v file entry = own := by rw [entryEdits, here, Option.getD_some]
    simp only [edits, Option.bind_eq_bind] at here ⊢
    obtain ⟨f, found, here⟩ := Option.bind_eq_some_iff.mp here
    obtain ⟨es, patched, here⟩ := Option.bind_eq_some_iff.mp here
    simp only [Option.bind_some, pure, List.append_nil, Option.some.injEq] at here
    rw [found, Option.bind_some, patched, Option.bind_some, rest, Option.bind_some,
      List.flatMap_cons, first, here]
    rfl

/-- What is written, for edits that lie inside the files. -/
theorem written_text {edits : List Edit} {buffers : Buffers}
    (inside : ∀ e ∈ edits, e.off ≤ (file.contents e.file).length)
    (run : edits.foldlM (insertText file.contents) (fun _ => none) = some buffers) (fid : Nat) :
    (buffers fid).map Buffer.text =
      if ∃ e ∈ edits, e.file = fid then
        some (weave (insertions (inFile fid edits)) (file.contents fid))
      else none := by
  obtain ⟨touched, _⟩ := insertText_run run fid
  have buffer := insertText_buffer fid run
  have fits : ∀ e ∈ inFile fid edits, e.1 ≤ (file.contents fid).length := by
    intro e mem
    obtain ⟨e, here, rfl⟩ := List.mem_map.mp mem
    obtain ⟨asked, own⟩ := List.mem_filter.mp here
    have le := inside e asked
    rwa [of_decide_eq_true own] at le
  obtain ⟨b, all, woven⟩ := weaves_run (file.contents fid) (inFile fid edits) fits
  have fresh : bufferAt file.contents (fun _ => none) fid = Buffer.new (file.contents fid) := rfl
  rw [fresh] at buffer
  have same : b = bufferAt file.contents buffers fid := Option.some.inj (all.symm.trans buffer)
  split
  · rename_i some'
    obtain ⟨e, mem, own⟩ := some'
    obtain ⟨c, hc⟩ : ∃ c, buffers fid = some c := by
      apply Option.ne_none_iff_exists'.mp
      intro none
      exact (touched.mp none).2 e mem own
    rw [hc, Option.map_some, ← woven.text, same]
    simp only [bufferAt, hc, Option.getD_some]
  · rename_i none
    have untouched : buffers fid = Option.none :=
      touched.mpr ⟨rfl, fun e mem own => none ⟨e, mem, own⟩⟩
    rw [untouched, Option.map_none]

theorem collected_known (file : SourceFile) (verbose : Bool) :
    ∀ entry ∈ (file.collected verbose).stages, ∃ own,
      (file.collected verbose).edits file [entry] = some own ∧
        ∀ e ∈ own, e.off ≤ (file.contents e.file).length := by
  intro entry mem
  have known := collect_matched file file.skipped
  obtain ⟨own, asked, _, fits⟩ := edits_run (file.collected verbose) file [entry] (by
    intro entry' here
    rw [List.mem_singleton.mp here]
    exact known entry mem)
  exact ⟨own, asked, fun e here => (fits e here).1⟩

theorem entryEdits_inside (file : SourceFile) (verbose : Bool) {entry : Nat × List Stage}
    (mem : entry ∈ (file.collected verbose).stages) :
    ∀ e ∈ entryEdits (file.collected verbose) file entry,
      e.off ≤ (file.contents e.file).length := by
  obtain ⟨own, asked, inside⟩ := collected_known file verbose entry mem
  rw [entryEdits, asked]
  exact inside

/-- What comes out for some order of the map. -/
theorem order_text (file : SourceFile) (verbose : Bool) {stages : Stages}
    (perm : stages.Perm (file.collected verbose).stages) :
    ({ file.collected verbose with stages }.handleEndSource file).map Prod.snd =
      some fun fid =>
        if ∃ entry ∈ (file.collected verbose).stages,
            ∃ e ∈ entryEdits (file.collected verbose) file entry, e.file = fid then
          some (weave (insertions (stages.flatMap fun entry =>
            inFile fid (entryEdits (file.collected verbose) file entry))) (file.contents fid))
        else none := by
  let v := file.collected verbose
  let es := stages.flatMap (entryEdits v file)
  have asked : { v with stages }.edits file stages = some es := by
    have same : { v with stages }.edits file stages = v.edits file stages :=
      edits_congr (v := { v with stages }) (w := v) rfl rfl file stages
    rw [same]
    apply edits_flatMap
    intro entry mem
    obtain ⟨own, here, _⟩ := collected_known file verbose entry (perm.mem_iff.mp mem)
    exact ⟨own, here⟩
  have inside : ∀ e ∈ es, e.off ≤ (file.contents e.file).length := by
    intro e mem
    obtain ⟨entry, here, own⟩ := List.mem_flatMap.mp mem
    exact entryEdits_inside file verbose (perm.mem_iff.mp here) e own
  obtain ⟨buffers, run⟩ := (fits_new file.contents).run inside
  have ends : ({ v with stages }.handleEndSource file).map Prod.snd =
      some fun fid => (buffers fid).map Buffer.text := by
    have fresh : v.buffers = fun _ => none := rfl
    simp only [handleEndSource, rewrite, asked, Option.bind_eq_bind, Option.bind_some]
    rw [fresh, run]
    rfl
  refine ends.trans (congrArg some ?_)
  funext fid
  have touched : (∃ e ∈ es, e.file = fid) ↔
      ∃ entry ∈ v.stages, ∃ e ∈ entryEdits v file entry, e.file = fid := by
    constructor
    · rintro ⟨e, mem, own⟩
      obtain ⟨entry, here, asked⟩ := List.mem_flatMap.mp mem
      exact ⟨entry, perm.mem_iff.mp here, e, asked, own⟩
    · rintro ⟨entry, here, e, asked, own⟩
      exact ⟨e, List.mem_flatMap.mpr ⟨entry, perm.mem_iff.mpr here, asked⟩, own⟩
  rw [written_text inside run fid, ← inFile_flatMap]
  simp only [touched, es, v]

theorem order_free_texts (file : SourceFile) (verbose : Bool) : OrderFree file verbose ↔
    ∀ fid, ∀ stages : Stages, stages.Perm (file.collected verbose).stages →
      weave (insertions (stages.flatMap fun entry =>
          inFile fid (entryEdits (file.collected verbose) file entry))) (file.contents fid) =
        weave (insertions ((file.collected verbose).stages.flatMap fun entry =>
          inFile fid (entryEdits (file.collected verbose) file entry))) (file.contents fid) := by
  have own := order_text file verbose (List.Perm.refl (file.collected verbose).stages)
  constructor
  · intro free fid stages perm
    have same := (order_text file verbose perm).symm.trans ((free stages perm).trans own)
    have at_fid := congrFun (Option.some.inj same) fid
    split at at_fid
    · exact Option.some.inj at_fid
    · rename_i untouched
      have nothing : ∀ entry ∈ (file.collected verbose).stages,
          inFile fid (entryEdits (file.collected verbose) file entry) = [] := by
        intro entry mem
        unfold inFile
        rw [List.filter_eq_nil_iff.mpr, List.map_nil]
        intro e here own
        exact untouched ⟨entry, mem, e, here, of_decide_eq_true own⟩
      rw [List.flatMap_eq_nil_iff.mpr nothing, List.flatMap_eq_nil_iff.mpr fun entry mem =>
        nothing entry (perm.mem_iff.mp mem)]
  · intro same stages perm
    rw [order_text file verbose perm]
    refine Eq.trans ?_ own.symm
    refine congrArg some (funext fun fid => ?_)
    rw [same fid stages perm]

theorem modify_keys (f : Nat) (change : List Stage → List Stage) (stages : Stages) :
    (stages.modify f change).map Prod.fst =
      if f ∈ stages.map Prod.fst then stages.map Prod.fst else stages.map Prod.fst ++ [f] := by
  induction stages with
  | nil => rfl
  | cons entry stages ih =>
    obtain ⟨g, ss⟩ := entry
    by_cases same : g = f
    · simp [Stages.modify, same]
    · simp only [Stages.modify, if_neg same, List.map_cons, ih, List.mem_cons, Ne.symm same,
        false_or]
      split <;> rfl

/-- Each function has one entry. -/
theorem collect_keys (reports : List MatchResult) :
    ((collect reports).map Prod.fst).Nodup := by
  induction reports using List.reverseRecOn with
  | nil => exact List.nodup_nil
  | append_singleton reports res ih =>
    have last : collect (reports ++ [res]) = run (collect reports) res := by
      simp only [collect, List.foldl_append, List.foldl_cons, List.foldl_nil]
    rw [last, run, modify_keys]
    split
    · exact ih
    · rename_i fresh
      exact List.nodup_append.mpr ⟨ih, List.nodup_singleton _, by
        rintro g mem _ here rfl
        exact fresh (List.mem_singleton.mp here ▸ mem)⟩

/-- An entry inserts text at the places of its function only. -/
theorem entry_places (file : SourceFile) (verbose : Bool) {entry : Nat × List Stage}
    (mem : entry ∈ (file.collected verbose).stages) : ∃ f,
      (file.matched file.skipped)[entry.1]? = some f ∧
      ∀ e ∈ entryEdits (file.collected verbose) file entry,
        f.file = e.file ∧ f.Place (file.tokens e.file) e.off := by
  obtain ⟨f, _, found, _, awaits⟩ := collect_matched file file.skipped entry mem
  obtain ⟨own, asked, _⟩ := collected_known file verbose entry mem
  refine ⟨f, found, fun e here => ?_⟩
  rw [entryEdits, asked, Option.getD_some] at here
  obtain ⟨entry', listed, f', es, found', patched, here⟩ := (mem_edits asked e).mp here
  cases List.mem_singleton.mp listed
  have same : f' = f := Option.some.inj (found'.symm.trans found)
  subst same
  obtain ⟨file', place⟩ := (SourceFunction.patch_places patched e.file e.off).mp ⟨e, here, rfl, rfl⟩
  rw [file'] at place
  refine ⟨file', place.imp_right ?_⟩
  rintro ⟨st, mem, at'⟩
  exact ⟨st.aw, awaits st mem, at'⟩

end MapOrder

open MapOrder in
/-- The order of the map is never seen in the output just when any two functions insert, at
every place, texts that commute. -/
theorem order_free_iff (file : SourceFile) (verbose : Bool) : OrderFree file verbose ↔
    (file.collected verbose).stages.Pairwise fun a b => ∀ fid, ∀ off ≤ (file.contents fid).length,
      textAt (file.collected verbose) file fid off a ++
          textAt (file.collected verbose) file fid off b =
        textAt (file.collected verbose) file fid off b ++
          textAt (file.collected verbose) file fid off a := by
  rw [order_free_texts]
  simp only [weave_any_order_iff, List.pairwise_iff_forall_sublist]
  constructor
  · intro commute a b sub fid off le
    exact commute fid sub off le
  · intro commute fid a b sub off le
    exact commute sub fid off le

open MapOrder in
/-- Functions that have no place in common can be patched in any order. -/
theorem order_free_of_apart (file : SourceFile) (verbose : Bool) (apart : file.Apart) :
    OrderFree file verbose := by
  rw [order_free_texts]
  intro fid
  apply (weave_any_order_iff _ _ _).mpr
  have keys : (file.collected verbose).stages.Pairwise fun a b => a.1 ≠ b.1 :=
    List.pairwise_map.mp (collect_keys _)
  refine keys.imp_of_mem fun {a b} ha hb differ off le => ?_
  obtain ⟨f, found, places⟩ := entry_places file verbose ha
  obtain ⟨g, found', places'⟩ := entry_places file verbose hb
  by_cases touched : ∃ e ∈ entryEdits (file.collected verbose) file a, e.file = fid ∧ e.off = off
  · obtain ⟨e, here, rfl, rfl⟩ := touched
    have none :
        insertions (inFile e.file (entryEdits (file.collected verbose) file b)) e.off = [] := by
      apply insertions_none
      intro p mem same
      obtain ⟨e', listed, rfl⟩ := List.mem_map.mp mem
      obtain ⟨here', own⟩ := List.mem_filter.mp listed
      have file' : e'.file = e.file := of_decide_eq_true own
      obtain ⟨at_f, place⟩ := places e here
      obtain ⟨at_g, place'⟩ := places' e' here'
      rw [file'] at at_g place'
      have same_place : e'.off = e.off := same
      rw [same_place] at place'
      exact apart a.1 b.1 f g differ found found' (at_f.trans at_g.symm) e.off
        (at_f ▸ place) (at_g ▸ place')
    rw [none, List.append_nil, List.nil_append]
  · have none : insertions (inFile fid (entryEdits (file.collected verbose) file a)) off = [] := by
      apply insertions_none
      intro p mem same
      obtain ⟨e', listed, rfl⟩ := List.mem_map.mp mem
      obtain ⟨here', own⟩ := List.mem_filter.mp listed
      exact touched ⟨e', here', of_decide_eq_true own, same⟩
    rw [none, List.append_nil, List.nil_append]

def nestedOuter : SourceFunction :=
  ⟨⟨[], .coawait .nil (.node (.function [] (.coawait .nil .nil) .nil) .nil)⟩, true, false,
    "ser_ctx<>", 1, ⟨14, 1, false, 1⟩,
    fun n => if n = 1 then ⟨16, 8, false, 1⟩ else ⟨57, 8, false, 1⟩,
    fun n => if n = 1 then ⟨27, 1, false, 1⟩ else ⟨68, 1, false, 1⟩⟩

def nestedInner : SourceFunction :=
  ⟨⟨[], .coawait .nil .nil⟩, true, false, "ser_ctx<>", 1, ⟨55, 1, false, 1⟩,
    fun _ => ⟨57, 8, false, 1⟩, fun _ => ⟨68, 1, false, 1⟩⟩

/-- `ser_ctx<> f() { co_await b(); struct S { ser_ctx<> g() { co_await a(); } }; }` -/
def nestedFile : SourceFile where
  contents fid := if fid = 1 then
    "ser_ctx<> f() { co_await b(); struct S { ser_ctx<> g() { co_await a(); } }; }\n".toList else []
  tokens fid := if fid = 1 then
    [⟨14, 1, false, 1⟩, ⟨16, 8, false, 1⟩, ⟨25, 1, false, 1⟩, ⟨26, 1, false, 1⟩, ⟨27, 1, false, 1⟩,
      ⟨28, 1, true, 1⟩, ⟨55, 1, false, 1⟩, ⟨57, 8, false, 1⟩, ⟨66, 1, false, 1⟩, ⟨67, 1, false, 1⟩,
      ⟨68, 1, false, 1⟩, ⟨69, 1, true, 1⟩, ⟨71, 1, false, 1⟩, ⟨73, 1, false, 1⟩, ⟨74, 1, true, 1⟩,
      ⟨76, 1, false, 1⟩] else []
  functions := [nestedOuter, nestedInner]
  inside := by
    intro fid
    by_cases h : fid = 1
    · simp only [if_pos h]
      decide
    · simp [h]
  brace := by decide
  begins := by decide
  semi := by decide

open MapOrder in
/-- The `co_await` of `g` is the second of `f`, and both numbers are saved in front of it. -/
theorem not_order_free_nested : ¬ OrderFree nestedFile false := by
  intro free
  have texts := (order_free_texts nestedFile false).mp free 1
  have commute := (weave_any_order_iff _ _ _).mp texts
  have both : (nestedFile.collected false).stages =
      [(0, [⟨⟨1, [0], false⟩, [0], []⟩, ⟨⟨4, [3, 0], true⟩, [3, 0], []⟩]),
        (1, [⟨⟨1, [0], false⟩, [0], []⟩])] := by decide
  rw [both] at commute
  have here := (List.pairwise_cons.mp commute).1 _ List.mem_cons_self 57 (by decide)
  have outer : textAt (nestedFile.collected false) nestedFile 1 57
      (0, [⟨⟨1, [0], false⟩, [0], []⟩, ⟨⟨4, [3, 0], true⟩, [3, 0], []⟩]) =
      (Emit.save false 2 "" 1).toList := List.append_nil _
  have inner : textAt (nestedFile.collected false) nestedFile 1 57
      (1, [⟨⟨1, [0], false⟩, [0], []⟩]) = (Emit.save false 1 "" 1).toList := List.append_nil _
  have join : (Emit.save false 2 "" 1).toList ++ (Emit.save false 1 "" 1).toList =
      (Emit.save false 1 "" 1).toList ++ (Emit.save false 2 "" 1).toList := by
    rw [← outer, ← inner]
    exact here
  have texts := (List.append_inj join (by decide +kernel)).1
  exact absurd texts (by decide +kernel)

end Valor.Valet
