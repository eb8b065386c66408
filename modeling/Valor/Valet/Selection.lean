import Valor.Lib.Provenance
import Valor.Valet.Text

/-! Which functions are rewritten, and what comes out for the others. A translation unit has
functions in its main file and in headers, any of them declared several times, and lambdas,
which are never matched themselves. -/
namespace Valor.Valet

open Edits

/-- A function or a lambda, from its first character up to behind its last one. `awaits` is a
`co_await` in this text, and `skipped` a `valor_skip` on any of its declarations. -/
structure Region where
  file : Nat
  start : Nat
  stop : Nat
  coroutine : Bool
  returnClass : String
  awaits : Bool
  skipped : Bool

namespace Region

def Intended (main : Nat) (r : Region) : Prop :=
  r.coroutine = true ∧ r.file = main ∧ r.returnClass = "valor::ser_ctx" ∧
    r.awaits = true ∧ r.skipped = false

/-- Text that is inserted right in front of a function is not inside it. -/
def Holds (r : Region) (place : Nat) (inserted : Bool) : Prop :=
  (if inserted then r.start < place else r.start ≤ place) ∧ place < r.stop

def Within (r s : Region) : Prop := s.start ≤ r.start ∧ r.stop ≤ s.stop

instance (r : Region) (place : Nat) (inserted : Bool) : Decidable (r.Holds place inserted) :=
  inferInstanceAs (Decidable ((if inserted then r.start < place else r.start ≤ place) ∧
    place < r.stop))

instance (r s : Region) : Decidable (r.Within s) :=
  inferInstanceAs (Decidable (s.start ≤ r.start ∧ r.stop ≤ s.stop))

end Region

/-- What else there is to know of a function. `declarations` says which of them carry
`valor_skip`, and `definition` which one has the body. -/
structure Outline where
  start : Nat
  stop : Nat
  returnClass : String
  declarations : List Bool
  definition : Nat

namespace SourceFunction

def region (f : SourceFunction) (o : Outline) : Region :=
  ⟨f.file, o.start, o.stop, f.coroutine, o.returnClass, f.decl.awaits ≠ [], o.declarations.any id⟩

/-- Where the stage of a `co_await` is saved and loaded. -/
def AwaitPlace (f : SourceFunction) (tokens : List Token) (aw : CoawaitExpr) (off : Nat) : Prop :=
  off = (f.begins aw.at').offset ∨
    ∃ semi, semiAfter tokens (f.ends aw.at').offset = some semi ∧ off = semi.offset + semi.length

/-- Where `rewrite` inserts text for a function. -/
def Place (f : SourceFunction) (tokens : List Token) (off : Nat) : Prop :=
  off = f.brace.offset + f.brace.length ∨ ∃ aw ∈ f.decl.awaits, f.AwaitPlace tokens aw off

end SourceFunction

structure Parsed where
  file : SourceFile
  main : Nat
  outline : SourceFunction → Outline
  lambdas : List Region

namespace Parsed

variable (u : Parsed)

def regionOf (f : SourceFunction) : Region := f.region (u.outline f)

def regions : List Region := u.file.functions.map u.regionOf ++ u.lambdas

/-- What stands at a place, or is inserted there, belongs to the innermost function. -/
def Owns (r : Region) (place : Nat) (inserted : Bool) : Prop :=
  r.Holds place inserted ∧
    ∀ s ∈ u.regions, s.file = r.file → s.Holds place inserted → r.Within s

instance (r : Region) (place : Nat) (inserted : Bool) : Decidable (u.Owns r place inserted) :=
  inferInstanceAs (Decidable (r.Holds place inserted ∧
    ∀ s ∈ u.regions, s.file = r.file → s.Holds place inserted → r.Within s))

/-- The declarations that `handleDeclAttribute` is called for: the number of a function, and
that of one of its declarations. -/
def skip : List (Nat × Nat) :=
  u.file.functions.zipIdx.flatMap fun p =>
    ((u.outline p.1).declarations.zipIdx.filter Prod.fst).map fun q => (p.2, q.2)

/-- The matcher, which comes to a function at its definition. -/
def selected : List SourceFunction :=
  (u.file.functions.zipIdx.filter fun p =>
    p.1.coroutine && (p.2, (u.outline p.1).definition) ∉ u.skip &&
      p.1.decl.awaits ≠ []).map Prod.fst

end Parsed

/-- No two functions have the same text, and the body of a coroutine opens in no function
within it. -/
structure SourceUnit extends Parsed where
  definition : ∀ f ∈ file.functions,
    (outline f).declarations[(outline f).definition]? = some f.valorSkip
  extent : ∀ r ∈ toParsed.regions, ∀ s ∈ toParsed.regions,
    r.file = s.file → r.start = s.start → r.stop = s.stop → r = s
  body : ∀ f ∈ file.functions, f.coroutine = true →
    toParsed.Owns (toParsed.regionOf f) (f.brace.offset + f.brace.length) true

namespace SourceUnit

variable (u : SourceUnit) (verbose : Bool)

/-- The text that comes out for a file, with where its characters are from. -/
def written (fid : Nat) : Option (Buffer (Mark Char)) := do
  let edits ← u.file.edits verbose
  (Buffer.new (Mark.original (u.file.contents fid))).insertAll
    (((edits.filter fun e => e.file = fid).map fun e => (e.off, e.text.toList)).map Mark.edit)

/-- The own text of a function comes out as it was. -/
def Untouched (r : Region) : Prop :=
  ∃ b, u.written verbose r.file = some b ∧
    Mark.part (fun place inserted => u.Owns r place inserted) b.text =
      Mark.part (fun place inserted => u.Owns r place inserted)
        (Mark.original (u.file.contents r.file))

def OnlyIntendedTouched : Prop :=
  ∀ r ∈ u.regions, ¬ r.Intended u.main → u.Untouched verbose r

/-- If there is a function around the place, the innermost one is intended. -/
def Intends (fid place : Nat) : Prop :=
  ∀ r ∈ u.regions, r.file = fid → u.Owns r place true → r.Intended u.main

/-- Those that are selected are intended, and where their `co_await`s begin and where the
first semicolons behind these are, only intended functions are. -/
structure Selective : Prop where
  functions : ∀ f ∈ u.selected, (u.regionOf f).Intended u.main
  saves : ∀ f ∈ u.selected, ∀ aw ∈ f.decl.awaits,
    u.Intends f.file (f.begins aw.at').offset
  loads : ∀ f ∈ u.selected, ∀ aw ∈ f.decl.awaits, ∀ semi,
    semiAfter (u.file.tokens f.file) (f.ends aw.at').offset = some semi →
      u.Intends f.file (semi.offset + semi.length)

end SourceUnit

/-! ## Where text is inserted -/

namespace SourceFunction

variable {f : SourceFunction} {verbose : Bool} {tokens : List Token} {ss : List Stage}
  {edits : List Edit}

theorem patchStage_places {n : Nat} {st : Stage}
    (asked : f.patchStage verbose tokens n st = some edits) (fid off : Nat) :
    (∃ e ∈ edits, e.file = fid ∧ e.off = off) ↔ f.file = fid ∧ f.AwaitPlace tokens st.aw off := by
  obtain ⟨semi, found, rfl⟩ := Option.map_eq_some_iff.mp asked
  simp [insertTextAfter, insertTextAfterToken, AwaitPlace, found, eq_comm, and_or_left]

theorem patchStages_places {n : Nat} (asked : f.patchStages verbose tokens n ss = some edits)
    (fid off : Nat) : (∃ e ∈ edits, e.file = fid ∧ e.off = off) ↔
      f.file = fid ∧ ∃ st ∈ ss, f.AwaitPlace tokens st.aw off := by
  induction ss generalizing n edits with
  | nil =>
    cases asked
    simp
  | cons st ss ih =>
    obtain ⟨first, here, asked⟩ := Option.bind_eq_some_iff.mp asked
    obtain ⟨rest, later, asked⟩ := Option.bind_eq_some_iff.mp asked
    cases asked
    have own := patchStage_places here fid off
    have others := ih later
    simp only [List.mem_append, or_and_right, exists_or, own, others, List.mem_cons,
      exists_eq_left, and_or_left]

theorem patch_places (asked : f.patch verbose tokens ss = some edits) (fid off : Nat) :
    (∃ e ∈ edits, e.file = fid ∧ e.off = off) ↔ f.file = fid ∧
      (off = f.brace.offset + f.brace.length ∨ ∃ st ∈ ss, f.AwaitPlace tokens st.aw off) := by
  obtain ⟨rest, stages, rfl⟩ := Option.map_eq_some_iff.mp asked
  have later := patchStages_places stages fid off
  rw [and_or_left, ← later]
  simp [insertTextAfterToken, eq_comm]

end SourceFunction

theorem mem_edits {v : Valet} {file : SourceFile} {stages : Stages} {edits : List Edit}
    (asked : v.edits file stages = some edits) (e : Edit) : e ∈ edits ↔
      ∃ entry ∈ stages, ∃ f own, (file.matched v.skip)[entry.1]? = some f ∧
        f.patch v.verbose (file.tokens f.file) entry.2 = some own ∧ e ∈ own := by
  induction stages generalizing edits with
  | nil =>
    cases asked
    simp
  | cons entry stages ih =>
    obtain ⟨f, here, asked⟩ := Option.bind_eq_some_iff.mp asked
    obtain ⟨own, patched, asked⟩ := Option.bind_eq_some_iff.mp asked
    obtain ⟨rest, later, asked⟩ := Option.bind_eq_some_iff.mp asked
    cases asked
    simp [ih later, here, patched]

/-- Text is inserted at the places of the functions that are matched, and nowhere else. -/
theorem edits_places {file : SourceFile} {verbose : Bool} {edits : List Edit}
    (asked : file.edits verbose = some edits) (fid off : Nat) :
    (∃ e ∈ edits, e.file = fid ∧ e.off = off) ↔
      ∃ f ∈ file.matched file.skipped, f.file = fid ∧ f.Place (file.tokens fid) off := by
  let u : TranslationUnit := (file.matched file.skipped).map SourceFunction.decl
  have known := collect_matched file file.skipped
  constructor
  · rintro ⟨e, mem, rfl, rfl⟩
    obtain ⟨entry, here, f, own, taken, patched, mem⟩ := (mem_edits asked e).mp mem
    obtain ⟨f', _, taken', _, awaits⟩ := known entry here
    cases taken.symm.trans taken'
    obtain ⟨same, place⟩ := (SourceFunction.patch_places patched e.file e.off).mp ⟨e, mem, rfl, rfl⟩
    refine ⟨f, List.mem_of_getElem? taken, same, ?_⟩
    rw [← same]
    apply place.imp_right
    rintro ⟨st, mem, at'⟩
    exact ⟨st.aw, awaits st mem, at'⟩
  · rintro ⟨f, mem, rfl, place⟩
    obtain ⟨i, taken⟩ := List.getElem?_of_mem mem
    obtain ⟨listed, coroutine, some'⟩ := mem_matched mem
    have unit : u[i]? = some f.decl := by simp [u, taken]
    have stages := (collect_spec unit (.refl _)).1
    have entry : (i, (collect u.matches').get i) ∈ collect u.matches' := by
      apply Stages.get_mem
      intro none
      rw [none] at stages
      exact some' stages.symm.eq_nil
    obtain ⟨own, patched, _⟩ := file.patch_spec verbose listed coroutine
      fun st mem => stages.mem_iff.mp (List.mem_map_of_mem mem)
    have inserted : ∃ e ∈ own, e.file = f.file ∧ e.off = off := by
      apply (SourceFunction.patch_places patched f.file off).mpr
      refine ⟨rfl, place.imp_right ?_⟩
      rintro ⟨aw, here, at'⟩
      obtain ⟨st, mem, rfl⟩ := List.mem_map.mp (stages.mem_iff.mpr here)
      exact ⟨st, mem, at'⟩
    obtain ⟨e, mem, same⟩ := inserted
    exact ⟨e, (mem_edits asked e).mpr ⟨_, entry, f, own, taken, patched, mem⟩, same⟩

/-! ## The selection -/

namespace Parsed

variable {u : Parsed}

theorem mem_skip {i k : Nat} : (i, k) ∈ u.skip ↔
    ∃ f, u.file.functions[i]? = some f ∧ (u.outline f).declarations[k]? = some true := by
  unfold skip
  constructor
  · intro mem
    obtain ⟨⟨f, i'⟩, here, attributes⟩ := List.mem_flatMap.mp mem
    obtain ⟨⟨flag, k'⟩, carried, same⟩ := List.mem_map.mp attributes
    obtain ⟨listed, flag'⟩ := List.mem_filter.mp carried
    cases same
    cases flag'
    exact ⟨f, List.mem_zipIdx_iff_getElem?.mp here, List.mem_zipIdx_iff_getElem?.mp listed⟩
  · rintro ⟨f, here, carried⟩
    apply List.mem_flatMap.mpr
    refine ⟨(f, i), List.mem_zipIdx_iff_getElem?.mpr here, List.mem_map.mpr ⟨(true, k), ?_, rfl⟩⟩
    exact List.mem_filter.mpr ⟨List.mem_zipIdx_iff_getElem?.mpr carried, rfl⟩

end Parsed

theorem mem_skipped {file : SourceFile} {i : Nat} :
    i ∈ file.skipped ↔ ∃ f, file.functions[i]? = some f ∧ f.valorSkip = true := by
  unfold SourceFile.skipped
  constructor
  · intro mem
    obtain ⟨⟨f, i'⟩, here, rfl⟩ := List.mem_map.mp mem
    obtain ⟨listed, carried⟩ := List.mem_filter.mp here
    exact ⟨f, List.mem_zipIdx_iff_getElem?.mp listed, carried⟩
  · rintro ⟨f, here, carried⟩
    exact List.mem_map.mpr
      ⟨(f, i), List.mem_filter.mpr ⟨List.mem_zipIdx_iff_getElem?.mpr here, carried⟩, rfl⟩

namespace SourceUnit

variable {u : SourceUnit} {verbose : Bool} {f : SourceFunction} {r : Region}

/-- Only a `valor_skip` on the definition counts. -/
theorem selected_eq (u : SourceUnit) : u.selected = u.file.matched u.file.skipped := by
  unfold Parsed.selected SourceFile.matched
  apply congrArg (List.map Prod.fst)
  apply List.filter_congr
  rintro ⟨f, i⟩ mem
  have here := List.mem_zipIdx_iff_getElem?.mp mem
  have own := u.definition f (List.mem_of_getElem? here)
  have same : (i, (u.outline f).definition) ∈ u.skip ↔ i ∈ u.file.skipped := by
    rw [Parsed.mem_skip, mem_skipped]
    constructor
    · rintro ⟨g, found, carried⟩
      cases here.symm.trans found
      exact ⟨f, here, Option.some.inj (own.symm.trans carried)⟩
    · rintro ⟨g, found, carried⟩
      cases here.symm.trans found
      exact ⟨f, here, own.trans (congrArg some carried)⟩
  simp only [same]

/-! ## What comes out -/

/-- The marked text is what Valet writes; a file that it does not write stays as it is. -/
theorem written_spec (u : SourceUnit) (verbose : Bool) (fid : Nat) : ∃ v out b,
    (new verbose).process u.file = some (v, out) ∧ u.written verbose fid = some b ∧
      b.text.map Mark.value = (out fid).getD (u.file.contents fid) := by
  obtain ⟨edits, buffers, asked, run, alone⟩ := process_new verbose u.file
  have buffer := insertText_buffer fid run
  have fresh : bufferAt u.file.contents (fun _ => none) fid = Buffer.new (u.file.contents fid) := rfl
  rw [fresh, ← Mark.insertAll_value] at buffer
  obtain ⟨b, marked, erased⟩ := Option.map_eq_some_iff.mp buffer
  refine ⟨_, _, b, alone, ?_, ?_⟩
  · unfold written
    rw [asked]
    exact marked
  · have text := congrArg Buffer.text erased
    simp only [Buffer.map, bufferAt] at text
    rw [text]
    cases buffers fid with
    | none => rfl
    | some b' => rfl

/-- A part of a file comes out as it was just when no edit is made in it. -/
theorem written_part {edits : List Edit} (asked : u.file.edits verbose = some edits) (fid : Nat)
    (keep : Nat → Bool → Bool) : ∃ b, u.written verbose fid = some b ∧
      (Mark.part keep b.text = Mark.part keep (Mark.original (u.file.contents fid)) ↔
        ∀ e ∈ edits, e.file = fid → keep e.off true = false) := by
  obtain ⟨edits', asked', _, fits⟩ := edits_spec u.file verbose
  cases asked.symm.trans asked'
  obtain ⟨_, _, b, _, written, _⟩ := u.written_spec verbose fid
  refine ⟨b, written, ?_⟩
  unfold SourceUnit.written at written
  rw [asked] at written
  have inside : ∀ e ∈ (edits.filter fun e => e.file = fid).map fun e => (e.off, e.text.toList),
      e.1 ≤ (u.file.contents fid).length ∧ e.2 ≠ [] := by
    intro e mem
    obtain ⟨e, here, rfl⟩ := List.mem_map.mp mem
    obtain ⟨asked, file⟩ := List.mem_filter.mp here
    obtain ⟨le, text⟩ := fits e asked
    rw [of_decide_eq_true file] at le
    exact ⟨le, by simpa using text⟩
  rw [part_same_iff written (fun e mem => (inside e mem).1) fun e mem => (inside e mem).2]
  simp only [List.forall_mem_map, List.mem_filter, decide_eq_true_eq, and_imp]

/-- A function comes out as it was just when no text is inserted in its own text. -/
theorem untouched_iff (u : SourceUnit) (verbose : Bool) (r : Region) : u.Untouched verbose r ↔
    ∀ f ∈ u.selected, f.file = r.file → ∀ place, f.Place (u.file.tokens r.file) place →
      ¬ u.Owns r place true := by
  obtain ⟨edits, asked, _⟩ := edits_spec u.file verbose
  obtain ⟨b, written, same⟩ :=
    u.written_part asked r.file fun place inserted => u.Owns r place inserted
  have places := edits_places asked r.file
  rw [u.selected_eq]
  constructor
  · rintro ⟨b', written', kept⟩ f selected file place at' own
    cases Option.some.inj (written.symm.trans written')
    obtain ⟨e, mem, file, rfl⟩ := (places place).mpr ⟨f, selected, file, at'⟩
    exact of_decide_eq_false (same.mp kept e mem file) own
  · intro none
    refine ⟨b, written, same.mpr fun e mem file => ?_⟩
    obtain ⟨f, selected, file, at'⟩ := (places e.off).mp ⟨e, mem, file, rfl⟩
    exact decide_eq_false (none f selected file e.off at')

theorem regionOf_mem (mem : f ∈ u.file.functions) : u.regionOf f ∈ u.regions :=
  List.mem_append_left _ (List.mem_map_of_mem mem)

theorem body_owner (mem : f ∈ u.file.functions) (coroutine : f.coroutine = true)
    (here : r ∈ u.regions) (file : r.file = f.file)
    (own : u.Owns r (f.brace.offset + f.brace.length) true) : r = u.regionOf f := by
  have body := u.body f mem coroutine
  have inner := own.2 (u.regionOf f) (regionOf_mem mem) file.symm body.1
  have outer := body.2 r here file own.1
  apply u.extent r here _ (regionOf_mem mem) file
  · exact Nat.le_antisymm outer.1 inner.1
  · exact Nat.le_antisymm inner.2 outer.2

theorem Selective.intends (intended : u.Selective) (selected : f ∈ u.selected) {place : Nat}
    (at' : f.Place (u.file.tokens f.file) place) : u.Intends f.file place := by
  have mem : f ∈ u.file.matched u.file.skipped := u.selected_eq ▸ selected
  obtain ⟨listed, coroutine, _⟩ := mem_matched mem
  rcases at' with rfl | ⟨aw, own, rfl | ⟨semi, found, rfl⟩⟩
  · intro r here file own
    rw [body_owner listed coroutine here file own]
    exact intended.functions f selected
  · exact intended.saves f selected aw own
  · exact intended.loads f selected aw own semi found

/-- The functions that are not intended come out as they were just when the selection and the
places of the edits keep to those that are. -/
theorem only_intended_touched_iff (u : SourceUnit) (verbose : Bool) :
    u.OnlyIntendedTouched verbose ↔ u.Selective := by
  constructor
  · intro claim
    have intends : ∀ f ∈ u.selected, ∀ place, f.Place (u.file.tokens f.file) place →
        u.Intends f.file place := by
      intro f selected place at' r here file own
      by_contra other
      have untouched := (u.untouched_iff verbose r).mp (claim r here other)
      exact untouched f selected file.symm place (file ▸ at') own
    constructor
    · intro f selected
      have mem : f ∈ u.file.matched u.file.skipped := u.selected_eq ▸ selected
      obtain ⟨listed, coroutine, _⟩ := mem_matched mem
      exact intends f selected _ (.inl rfl) _ (regionOf_mem listed) rfl (u.body f listed coroutine)
    · intro f selected aw own
      exact intends f selected _ (.inr ⟨aw, own, .inl rfl⟩)
    · intro f selected aw own semi found
      exact intends f selected _ (.inr ⟨aw, own, .inr ⟨semi, found, rfl⟩⟩)
  · intro selective r here other
    apply (u.untouched_iff verbose r).mpr
    intro f selected file place at' own
    exact other (selective.intends selected (file ▸ at') r here file.symm own)

end SourceUnit

/-- The definition in
```
[[valor_skip]] ser_ctx<> f();
ser_ctx<> f() { co_await remote_op(); }
```
-/
def redeclaredFunction : SourceFunction :=
  ⟨⟨[], .coawait .nil .nil⟩, true, false, "ser_ctx<>", 1, ⟨44, 1, false, 2⟩,
    fun _ => ⟨46, 8, false, 2⟩, fun _ => ⟨65, 1, false, 2⟩⟩

def redeclaredFile : SourceFile where
  contents fid := if fid = 1 then
    "[[valor_skip]] ser_ctx<> f();\nser_ctx<> f() { co_await remote_op(); }\n".toList else []
  tokens fid := if fid = 1 then
    [⟨0, 1, false, 1⟩, ⟨1, 1, false, 1⟩, ⟨2, 10, false, 1⟩, ⟨12, 1, false, 1⟩, ⟨13, 1, false, 1⟩,
      ⟨15, 7, false, 1⟩, ⟨22, 1, false, 1⟩, ⟨23, 1, false, 1⟩, ⟨25, 1, false, 1⟩,
      ⟨26, 1, false, 1⟩, ⟨27, 1, false, 1⟩, ⟨28, 1, true, 1⟩,
      ⟨30, 7, false, 2⟩, ⟨37, 1, false, 2⟩, ⟨38, 1, false, 2⟩, ⟨40, 1, false, 2⟩,
      ⟨41, 1, false, 2⟩, ⟨42, 1, false, 2⟩, ⟨44, 1, false, 2⟩, ⟨46, 8, false, 2⟩,
      ⟨55, 9, false, 2⟩, ⟨64, 1, false, 2⟩, ⟨65, 1, false, 2⟩, ⟨66, 1, true, 2⟩,
      ⟨68, 1, false, 2⟩] else []
  functions := [redeclaredFunction]
  inside := by
    intro fid
    by_cases h : fid = 1
    · simp only [if_pos h]
      decide
    · simp [h]
  brace := by simp [redeclaredFunction]
  begins := by simp [redeclaredFunction]
  semi := by simp [redeclaredFunction, semiAfter]

def redeclared : SourceUnit where
  file := redeclaredFile
  main := 1
  outline _ := ⟨30, 69, "valor::ser_ctx", [true, false], 1⟩
  lambdas := []
  definition := by
    intro f mem
    cases List.mem_singleton.mp mem
    rfl
  extent := by
    intro r hr s hs _ _ _
    exact (List.mem_singleton.mp hr).trans (List.mem_singleton.mp hs).symm
  body := by
    intro f mem _
    cases List.mem_singleton.mp mem
    decide

/-- The attribute on the first declaration is lost. -/
theorem not_only_intended_touched :
    ¬ ∀ (u : SourceUnit) (verbose : Bool), u.OnlyIntendedTouched verbose := by
  intro claim
  have listed : redeclaredFunction ∈ redeclared.file.functions := List.mem_singleton_self _
  have selected : redeclaredFunction ∈ redeclared.selected := by
    have all : redeclared.selected = [redeclaredFunction] := rfl
    exact all ▸ List.mem_singleton_self _
  have skipped : ¬ (redeclared.regionOf redeclaredFunction).Intended redeclared.main := by
    rintro ⟨_, _, _, _, none⟩
    contradiction
  have untouched := claim redeclared false _ (SourceUnit.regionOf_mem listed) skipped
  have body := redeclared.body redeclaredFunction listed rfl
  exact (redeclared.untouched_iff false _).mp untouched redeclaredFunction selected rfl _ (.inl rfl)
    body

end Valor.Valet
