import Valor.Lib.EditBuffer
import Valor.Valet.Emit

/-! One Valet object over several files. The stages are cleared after each file and the set
of skipped declarations before each, but the edit buffers, which are kept by file number,
stay; and the main file of every run has the same number. -/
namespace Valor

open Edits

abbrev Valet.Buffers := Nat → Option (Buffer Char)

structure Valet where
  verbose : Bool
  stages : Valet.Stages
  skip : List Nat
  buffers : Valet.Buffers

namespace Valet

/-- What is written, by file number. -/
abbrev Output := Nat → Option (List Char)

/-- `getEditBuffer` makes a buffer with the text of the file when there is none. -/
def insertText (contents : Nat → List Char) (buffers : Buffers) (e : Edit) : Option Buffers :=
  ((buffers e.file).getD (Buffer.new (contents e.file))).insertAfter e.off e.text.toList |>.map
    fun b => Function.update buffers e.file (some b)

def SourceFile.skipped (file : SourceFile) : List Nat :=
  (file.functions.zipIdx.filter fun p => p.1.valorSkip).map Prod.snd

/-- The functions that the matcher takes: coroutines with a `co_await` somewhere. -/
def SourceFile.matched (file : SourceFile) (skip : List Nat) : List SourceFunction :=
  (file.functions.zipIdx.filter fun p =>
    p.1.coroutine && p.2 ∉ skip && p.1.decl.awaits ≠ []).map Prod.fst

def new (verbose : Bool) : Valet := ⟨verbose, [], [], fun _ => none⟩

def handleBeginSource (v : Valet) : Valet := { v with skip := [] }

/-- While the file is parsed the attributes are handled. -/
def handleDeclAttributes (v : Valet) (file : SourceFile) : Valet :=
  { v with skip := v.skip ++ file.skipped }

def runMatches (v : Valet) (file : SourceFile) : Valet :=
  let u : TranslationUnit := (file.matched v.skip).map SourceFunction.decl
  { v with stages := u.matches'.foldl run v.stages }

/-- The edits of `rewrite`, over all entries of the map. -/
def edits (v : Valet) (file : SourceFile) : Stages → Option (List Edit)
  | [] => some []
  | (i, ss) :: stages => do
    let f ← (file.matched v.skip)[i]?
    let here ← f.patch v.verbose (file.tokens f.file) ss
    let rest ← v.edits file stages
    return here ++ rest

def rewrite (v : Valet) (file : SourceFile) : Option Valet := do
  let edits ← v.edits file v.stages
  let buffers ← edits.foldlM (insertText file.contents) v.buffers
  return { v with stages := [], buffers }

def handleEndSource (v : Valet) (file : SourceFile) : Option (Valet × Output) :=
  (v.rewrite file).map fun v' => (v', fun fid => (v'.buffers fid).map Buffer.text)

def process (v : Valet) (file : SourceFile) : Option (Valet × Output) :=
  ((v.handleBeginSource.handleDeclAttributes file).runMatches file).handleEndSource file

/-- What is written for each of the files; from a crash on nothing is. -/
def outputs (v : Valet) : List SourceFile → List (Option Output)
  | [] => []
  | file :: files =>
    match v.process file with
    | some (v', out) => some out :: v'.outputs files
    | none => none :: files.map fun _ => none

/-- Every file comes out as from an object of its own. -/
def Independent (verbose : Bool) (files : List SourceFile) : Prop :=
  (new verbose).outputs files =
    files.map fun file => ((new verbose).process file).map Prod.snd

/-- There is something to rewrite in the file. -/
def SourceFile.Rewritten (file : SourceFile) : Prop := file.matched file.skipped ≠ []

/-! ## One file -/

/-- The edits that a file asks for. -/
def SourceFile.edits (file : SourceFile) (verbose : Bool) : Option (List Edit) :=
  let v : Valet := ⟨verbose, [], file.skipped, fun _ => none⟩
  v.edits file (v.runMatches file).stages

theorem edits_congr {v w : Valet} (verbose : v.verbose = w.verbose) (skip : v.skip = w.skip)
    (file : SourceFile) (stages : Stages) : v.edits file stages = w.edits file stages := by
  induction stages with
  | nil => rfl
  | cons entry stages ih => simp only [edits, verbose, skip, ih]

/-- Of what the object brings along, only the buffers matter. -/
theorem process_spec {v : Valet} (cleared : v.stages = []) (file : SourceFile) :
    v.process file = (file.edits v.verbose).bind fun edits =>
      (edits.foldlM (insertText file.contents) v.buffers).map fun buffers =>
        (⟨v.verbose, [], file.skipped, buffers⟩, fun fid => (buffers fid).map Buffer.text) := by
  have same : ((v.handleBeginSource.handleDeclAttributes file).runMatches file).edits file
      ((v.handleBeginSource.handleDeclAttributes file).runMatches file).stages =
      file.edits v.verbose := by
    simp only [SourceFile.edits, runMatches, handleDeclAttributes, handleBeginSource, cleared,
      List.nil_append]
    apply edits_congr <;> rfl
  rw [process, handleEndSource, rewrite, same]
  cases file.edits v.verbose with
  | none => rfl
  | some edits =>
    simp only [Option.bind_eq_bind, Option.bind_some]
    cases run : edits.foldlM (insertText file.contents) v.buffers with
    | none => simp [runMatches, handleDeclAttributes, handleBeginSource, run]
    | some buffers =>
      simp [runMatches, handleDeclAttributes, handleBeginSource, run]

theorem edits_run (v : Valet) (file : SourceFile) (stages : Stages)
    (known : ∀ entry ∈ stages, ∃ f ∈ file.functions, (file.matched v.skip)[entry.1]? = some f ∧
      f.coroutine ∧ ∀ st ∈ entry.2, st.aw ∈ f.decl.awaits) :
    ∃ edits, v.edits file stages = some edits ∧ (edits = [] ↔ stages = []) ∧
      ∀ e ∈ edits, e.off ≤ (file.contents e.file).length ∧ e.text ≠ "" := by
  induction stages with
  | nil => exact ⟨[], rfl, by simp, by simp⟩
  | cons entry stages ih =>
    obtain ⟨rest, later, _, fits⟩ := ih fun entry mem => known entry (List.mem_cons_of_mem _ mem)
    obtain ⟨f, mem, here, coroutine, awaits⟩ := known entry List.mem_cons_self
    obtain ⟨own, patched, some', fits'⟩ :=
      file.patch_spec v.verbose mem coroutine awaits
    refine ⟨own ++ rest, ?_, by simp [some'], fun e mem => ?_⟩
    · simp [edits, here, patched, later]
    · exact (List.mem_append.mp mem).elim (fits' e) (fits e)

theorem mem_matched {file : SourceFile} {skip : List Nat} {f : SourceFunction}
    (mem : f ∈ file.matched skip) :
    f ∈ file.functions ∧ f.coroutine = true ∧ f.decl.awaits ≠ [] := by
  obtain ⟨p, here, rfl⟩ := List.mem_map.mp mem
  obtain ⟨listed, taken⟩ := List.mem_filter.mp here
  simp only [Bool.and_eq_true, decide_eq_true_eq] at taken
  exact ⟨List.mem_of_getElem? (List.mem_zipIdx_iff_getElem?.mp listed), taken.1.1, taken.2⟩

/-- Every entry of the map belongs to a function that is matched. -/
theorem collect_matched (file : SourceFile) (skip : List Nat) :
    ∀ entry ∈ collect (TranslationUnit.matches' ((file.matched skip).map SourceFunction.decl)),
      ∃ f ∈ file.functions, (file.matched skip)[entry.1]? = some f ∧ f.coroutine ∧
        ∀ st ∈ entry.2, st.aw ∈ f.decl.awaits := by
  intro entry mem
  obtain ⟨⟨r, here, same⟩, stages⟩ := collect_entries _ entry mem
  obtain ⟨decl, found, _⟩ := mem_matches here
  rw [same, List.getElem?_map] at found
  obtain ⟨f, taken, rfl⟩ := Option.map_eq_some_iff.mp found
  obtain ⟨listed, coroutine, _⟩ := mem_matched (List.mem_of_getElem? taken)
  refine ⟨f, listed, taken, coroutine, fun st mem => ?_⟩
  obtain ⟨r', here', same', await⟩ := stages st mem
  obtain ⟨decl', found', own⟩ := mem_matches here'
  rw [same', List.getElem?_map, taken] at found'
  cases found'
  exact await ▸ own

/-- The edits lie inside the files, insert something, and are there for a file that is
rewritten. -/
theorem edits_spec (file : SourceFile) (verbose : Bool) :
    ∃ edits, file.edits verbose = some edits ∧ (edits = [] ↔ ¬ file.Rewritten) ∧
      ∀ e ∈ edits, e.off ≤ (file.contents e.file).length ∧ e.text ≠ "" := by
  let u : TranslationUnit := (file.matched file.skipped).map SourceFunction.decl
  let v : Valet := ⟨verbose, [], file.skipped, fun _ => none⟩
  obtain ⟨edits, run, empty, fits⟩ :=
    edits_run v file (collect u.matches') (collect_matched file file.skipped)
  refine ⟨edits, run, empty.trans ?_, fits⟩
  rw [SourceFile.Rewritten, not_not]
  constructor
  · intro none
    apply List.eq_nil_iff_forall_not_mem.mpr
    intro f mem
    obtain ⟨_, _, awaits⟩ := mem_matched mem
    obtain ⟨aw, own⟩ := List.exists_mem_of_ne_nil _ awaits
    obtain ⟨i, here⟩ := List.getElem?_of_mem mem
    have unit : u[i]? = some f.decl := by simp [u, here]
    obtain ⟨r, reported, _⟩ := (awaits_reported unit aw).mpr own
    exact collect_ne_nil (List.ne_nil_of_mem reported) none
  · intro none
    simp [u, none, TranslationUnit.matches', collect]

/-! ## Buffers -/

/-- The length of what is inserted into a file. -/
def inserted (edits : List Edit) (fid : Nat) : Nat :=
  ((edits.filter fun e => e.file = fid).map fun e => e.text.toList.length).sum

theorem inserted_cons (e : Edit) (edits : List Edit) (fid : Nat) : inserted (e :: edits) fid =
    (if e.file = fid then e.text.toList.length else 0) + inserted edits fid := by
  by_cases h : e.file = fid <;> simp [inserted, h]

theorem inserted_pos {edits : List Edit} {e : Edit} (mem : e ∈ edits) (text : e.text ≠ "") :
    0 < inserted edits e.file := by
  induction edits with
  | nil => cases mem
  | cons first edits ih =>
    rw [inserted_cons]
    rcases List.mem_cons.mp mem with rfl | mem
    · have pos : 0 < e.text.toList.length := List.length_pos_iff.mpr (by simpa using text)
      simp only [if_true]
      omega
    · have := ih mem
      omega

def bufferAt (contents : Nat → List Char) (buffers : Buffers) (fid : Nat) : Buffer Char :=
  (buffers fid).getD (Buffer.new (contents fid))

variable {contents : Nat → List Char} {buffers buffers' : Buffers} {edits : List Edit}

theorem insertText_run (run : edits.foldlM (insertText contents) buffers = some buffers')
    (fid : Nat) :
    (buffers' fid = none ↔ buffers fid = none ∧ ∀ e ∈ edits, e.file ≠ fid) ∧
    (bufferAt contents buffers' fid).text.length =
      (bufferAt contents buffers fid).text.length + inserted edits fid := by
  induction edits generalizing buffers with
  | nil =>
    cases run
    simp [inserted]
  | cons e edits ih =>
    obtain ⟨middle, step, rest⟩ := Option.bind_eq_some_iff.mp run
    obtain ⟨b, here, rfl⟩ := Option.map_eq_some_iff.mp step
    obtain ⟨touched, length⟩ := ih rest
    by_cases same : e.file = fid
    · subst same
      have added := insertAfter_length here
      constructor
      · simp [touched]
      · rw [length]
        simp only [bufferAt, Function.update_self, Option.getD_some, inserted_cons, if_true, added]
        omega
    · have other : Function.update buffers e.file (some b) fid = buffers fid :=
        Function.update_of_ne (Ne.symm same) _ _
      constructor
      · rw [touched, other]
        simp [same]
      · rw [length]
        simp [bufferAt, other, inserted_cons, same]

/-- Buffers that hold the texts of the files, with insertions. -/
def Fits (contents : Nat → List Char) (buffers : Buffers) : Prop :=
  ∀ fid, ∃ ins, Weaves (contents fid) ins (bufferAt contents buffers fid)

theorem Fits.run (h : Fits contents buffers)
    (inside : ∀ e ∈ edits, e.off ≤ (contents e.file).length) :
    ∃ buffers', edits.foldlM (insertText contents) buffers = some buffers' := by
  induction edits generalizing buffers with
  | nil => exact ⟨buffers, rfl⟩
  | cons e edits ih =>
    obtain ⟨ins, weaves⟩ := h e.file
    obtain ⟨b, step, weaves'⟩ := weaves.insertAfter e.text.toList (inside e List.mem_cons_self)
    have fits : Fits contents (Function.update buffers e.file (some b)) := by
      intro fid
      by_cases same : fid = e.file
      · subst same
        exact ⟨_, by simpa [bufferAt] using weaves'⟩
      · obtain ⟨ins, old⟩ := h fid
        exact ⟨ins, by simpa [bufferAt, same] using old⟩
    obtain ⟨buffers', rest⟩ := ih fits fun e mem => inside e (List.mem_cons_of_mem _ mem)
    refine ⟨buffers', Option.bind_eq_some_iff.mpr ⟨_, ?_, rest⟩⟩
    exact Option.map_eq_some_iff.mpr ⟨b, step, rfl⟩

theorem fits_new (contents : Nat → List Char) : Fits contents fun _ => none :=
  fun fid => ⟨_, Weaves.new (contents fid)⟩

/-! ## Several files -/

theorem process_new (verbose : Bool) (file : SourceFile) :
    ∃ edits buffers, file.edits verbose = some edits ∧
      edits.foldlM (insertText file.contents) (fun _ => none) = some buffers ∧
      (new verbose).process file = some (⟨verbose, [], file.skipped, buffers⟩,
        fun fid => (buffers fid).map Buffer.text) := by
  obtain ⟨edits, asked, _, inside⟩ := edits_spec file verbose
  obtain ⟨buffers, run⟩ := (fits_new file.contents).run fun e mem => (inside e mem).1
  refine ⟨edits, buffers, asked, run, ?_⟩
  rw [process_spec rfl]
  simp [new, asked, run]

/-- Where nothing is rewritten, the object writes what it has and keeps it. -/
theorem process_plain {v : Valet} (cleared : v.stages = []) {file : SourceFile}
    (plain : ¬ file.Rewritten) : v.process file =
      some (⟨v.verbose, [], file.skipped, v.buffers⟩, fun fid => (v.buffers fid).map Buffer.text) := by
  obtain ⟨edits, asked, empty, _⟩ := edits_spec file v.verbose
  rw [process_spec cleared, asked, empty.mpr plain]
  rfl

theorem outputs_cons {v v' : Valet} {file : SourceFile} {out : Output}
    (first : v.process file = some (v', out)) (files : List SourceFile) :
    v.outputs (file :: files) = some out :: v'.outputs files := by
  simp [outputs, first]

/-- No buffer is there before anything is rewritten. -/
theorem outputs_of_last (files : List SourceFile) (v : Valet) (cleared : v.stages = [])
    (unused : v.buffers = fun _ => none) (plain : ∀ file ∈ files.dropLast, ¬ file.Rewritten) :
    v.outputs files = files.map fun file => ((new v.verbose).process file).map Prod.snd := by
  induction files generalizing v with
  | nil => rfl
  | cons file files ih =>
    have alone : v.process file = (new v.verbose).process file := by
      rw [process_spec cleared, process_spec rfl, unused]
      rfl
    cases files with
    | nil =>
      simp only [outputs, alone, List.map_cons, List.map_nil]
      cases (new v.verbose).process file with
      | none => rfl
      | some result => rfl
    | cons next files =>
      have first := process_plain cleared (plain file (by simp))
      have rest := ih ⟨v.verbose, [], file.skipped, v.buffers⟩ rfl unused fun file mem =>
        plain file (List.mem_cons_of_mem _ mem)
      have own := alone.symm.trans first
      simp only [outputs_cons first, rest, List.map_cons, own, Option.map_some]

theorem independent_of_last {verbose : Bool} {files : List SourceFile}
    (plain : ∀ file ∈ files.dropLast, ¬ file.Rewritten) : Independent verbose files :=
  outputs_of_last files (new verbose) rfl rfl plain

/-- The buffer of the first file is still there for the second. It comes out right for the
second only if that is rewritten at the same number, and as long as the first has become. -/
theorem second_length {verbose : Bool} {first second : SourceFile} {files : List SourceFile}
    (independent : Independent verbose (first :: second :: files)) {edits : List Edit}
    (asked : first.edits verbose = some edits) : ∀ e ∈ edits, ∃ edits' e',
      second.edits verbose = some edits' ∧ e' ∈ edits' ∧ e'.file = e.file ∧
      (second.contents e.file).length = (first.contents e.file).length + inserted edits e.file := by
  intro e mem
  obtain ⟨own, after, asked₁, run₁, alone₁⟩ := process_new verbose first
  obtain ⟨edits', fresh, asked₂, run₂, alone₂⟩ := process_new verbose second
  cases asked.symm.trans asked₁
  have outs := independent
  rw [Independent, outputs_cons alone₁, List.map_cons, List.map_cons, alone₂] at outs
  have tail := (List.cons.inj outs).2
  cases run₃ : edits'.foldlM (insertText second.contents) after with
  | none =>
    have crash : (⟨verbose, [], first.skipped, after⟩ : Valet).process second = none := by
      rw [process_spec rfl, asked₂]
      simp [run₃]
    simp [outputs, crash] at tail
  | some both =>
    have goes : (⟨verbose, [], first.skipped, after⟩ : Valet).process second =
        some (⟨verbose, [], second.skipped, both⟩, fun fid => (both fid).map Buffer.text) := by
      rw [process_spec rfl, asked₂]
      simp [run₃]
    rw [outputs_cons goes] at tail
    have texts : (both e.file).map Buffer.text = (fresh e.file).map Buffer.text :=
      congrFun (Option.some.inj (List.cons.inj tail).1) e.file
    obtain ⟨touched₁, length₁⟩ := insertText_run run₁ e.file
    obtain ⟨touched₂, length₂⟩ := insertText_run run₂ e.file
    obtain ⟨touched₃, length₃⟩ := insertText_run run₃ e.file
    obtain ⟨a, ha⟩ : ∃ a, after e.file = some a :=
      Option.ne_none_iff_exists'.mp fun none => (touched₁.mp none).2 e mem rfl
    obtain ⟨b, hb⟩ : ∃ b, both e.file = some b :=
      Option.ne_none_iff_exists'.mp fun none => by simp [ha] at touched₃; exact touched₃ none
    obtain ⟨c, hc⟩ : ∃ c, fresh e.file = some c := by
      rw [hb, Option.map_some] at texts
      obtain ⟨c, hc, _⟩ := Option.map_eq_some_iff.mp texts.symm
      exact ⟨c, hc⟩
    have shared : ∃ e' ∈ edits', e'.file = e.file := by
      by_contra none
      push Not at none
      rw [touched₂.mpr ⟨rfl, none⟩] at hc
      contradiction
    obtain ⟨e', mem', same⟩ := shared
    refine ⟨edits', e', asked₂, mem', same, ?_⟩
    have text : b.text = c.text := by simpa [hb, hc] using texts
    simp only [bufferAt, ha, hb, hc, text, Option.getD_some, Option.getD_none, Buffer.new]
      at length₁ length₂ length₃
    omega

/-- Files come out independently in every order just when there is one, or nothing is
rewritten in any of them. -/
theorem files_independent_iff (verbose : Bool) (files : List SourceFile) :
    (∀ files', files'.Perm files → Independent verbose files') ↔
      files.length ≤ 1 ∨ ∀ file ∈ files, ¬ file.Rewritten := by
  constructor
  · intro independent
    by_contra both
    obtain ⟨long, some'⟩ := not_or.mp both
    push Not at some'
    obtain ⟨first, mem, rewritten⟩ := some'
    obtain ⟨before, behind, rfl⟩ := List.append_of_mem mem
    obtain ⟨second, rest, others⟩ : ∃ second rest, before ++ behind = second :: rest := by
      apply List.exists_cons_of_ne_nil
      intro none
      obtain ⟨rfl, rfl⟩ := List.append_eq_nil_iff.mp none
      simp at long
    have order : (first :: second :: rest).Perm (before ++ first :: behind) :=
      others ▸ List.perm_middle.symm
    obtain ⟨edits, asked, empty, inside⟩ := edits_spec first verbose
    obtain ⟨e, here⟩ := List.exists_mem_of_ne_nil edits fun none => empty.mp none rewritten
    obtain ⟨edits', e', asked', here', same, longer⟩ :=
      second_length (independent _ order) asked e here
    obtain ⟨_, _, _, _, _, longer'⟩ :=
      second_length (independent _ ((List.Perm.swap _ _ _).trans order)) asked' e' here'
    have pos := inserted_pos here (inside e here).2
    rw [same] at longer'
    omega
  · rintro (short | plain) files' order
    · apply independent_of_last
      intro file mem
      have length := order.length_eq
      match files', mem with
      | [], mem => cases mem
      | [_], mem => cases mem
      | _ :: _ :: _, _ => simp only [List.length_cons] at length; omega
    · exact independent_of_last fun file mem =>
        plain file (order.mem_iff.mp (List.dropLast_subset _ mem))

/-- `ser_ctx<> f() { co_await remote_op(); }` -/
def coroFile : SourceFile where
  contents fid := if fid = 1 then "ser_ctx<> f() { co_await remote_op(); }\n".toList else []
  tokens fid := if fid = 1 then
    [⟨14, 1, false, 1⟩, ⟨16, 8, false, 1⟩, ⟨25, 9, false, 1⟩, ⟨34, 1, false, 1⟩, ⟨35, 1, false, 1⟩,
      ⟨36, 1, true, 1⟩, ⟨38, 1, false, 1⟩] else []
  functions := [⟨⟨[], .coawait .nil .nil⟩, true, false, "ser_ctx<>", 1, ⟨14, 1, false, 1⟩,
    fun _ => ⟨16, 8, false, 1⟩, fun _ => ⟨35, 1, false, 1⟩⟩]
  inside := by
    intro fid
    by_cases h : fid = 1
    · simp only [if_pos h]
      decide
    · simp [h]
  brace := by simp
  begins := by simp
  semi := by simp [semiAfter]

/-- `int f() { return 3; }` -/
def nonCoroFile : SourceFile where
  contents fid := if fid = 1 then "int f() { return 3; }".toList else []
  tokens _ := []
  functions := [⟨⟨[], .nil⟩, false, false, "int", 1, ⟨8, 1, false, 1⟩,
    fun _ => ⟨0, 0, false, 0⟩, fun _ => ⟨0, 0, false, 0⟩⟩]
  inside := fun _ _ mem => nomatch mem
  brace := fun f mem coroutine => by
    cases List.mem_singleton.mp mem
    contradiction
  begins := fun f mem aw here => by
    cases List.mem_singleton.mp mem
    cases here
  semi := fun f mem aw here => by
    cases List.mem_singleton.mp mem
    cases here

/-- The text of the coroutine is written once more for the other file. -/
theorem files_not_independent :
    ¬ ∀ (verbose : Bool) (files : List SourceFile), Independent verbose files := by
  intro claim
  have rewritten : coroFile.Rewritten := by
    rw [SourceFile.Rewritten]
    decide
  have plain : ¬ nonCoroFile.Rewritten := by
    rw [SourceFile.Rewritten]
    decide
  obtain ⟨edits, asked, empty, _⟩ := edits_spec coroFile false
  obtain ⟨e, mem⟩ := List.exists_mem_of_ne_nil edits fun none => empty.mp none rewritten
  obtain ⟨edits', e', asked', mem', _⟩ :=
    second_length (claim false [coroFile, nonCoroFile]) asked e mem
  obtain ⟨none, nothing, empty', _⟩ := edits_spec nonCoroFile false
  cases asked'.symm.trans nothing
  exact List.ne_nil_of_mem mem' (empty'.mpr plain)

end Valet

end Valor
