import Mathlib.Data.Finset.Sort
import Mathlib.Data.List.DropRight
import Valor.Lib.Builds
import Valor.Valet.Files

/-! The command: where the rewritten texts are written. Every source that is to be compiled
has a run of its own, which `make` does in any order. -/
namespace Valor.Valet

/-! ## Names of files -/

abbrev Path := List Char

/-- The last component. -/
def filename (p : Path) : List Char := p.rtakeWhile (· ≠ '/')

/-- A dot in front begins no extension. -/
def extension (p : Path) : List Char :=
  let name := filename p
  let ext := '.' :: name.rtakeWhile (· ≠ '.')
  if name = "..".toList then [] else if ext.length < name.length then ext else []

/-- `replace_extension` with nothing. -/
def replaceExtension (p : Path) : Path := p.take (p.length - (extension p).length)

def valetPath (p : Path) : Path := replaceExtension p ++ "_valet".toList ++ extension p

example : valetPath "/src/my.code.cc".toList = "/src/my.code_valet.cc".toList := by decide

theorem rtakeWhile_cut {A : Type} {p : A → Bool} {a : A} (stops : p a = false)
    (front back : List A) : (front ++ a :: back).rtakeWhile p = back.rtakeWhile p := by
  induction back using List.reverseRecOn with
  | nil =>
    rw [List.rtakeWhile_concat_neg _ _ _ (by simp [stops]), List.rtakeWhile_nil]
  | append_singleton back b ih =>
    have shape : front ++ a :: (back ++ [b]) = front ++ a :: back ++ [b] := by simp
    rw [shape, List.rtakeWhile_concat, List.rtakeWhile_concat, ih]

theorem rtakeWhile_keep {A : Type} {p : A → Bool} {back : List A} (all : ∀ b ∈ back, p b)
    (front : List A) : (front ++ back).rtakeWhile p = front.rtakeWhile p ++ back := by
  induction back using List.reverseRecOn with
  | nil => simp
  | append_singleton back b ih =>
    have before := ih fun b' mem => all b' (List.mem_append_left _ mem)
    rw [← List.append_assoc, List.rtakeWhile_concat_pos _ _ _ (all b (by simp)), before,
      List.append_assoc]

/-- The part behind the last dot, with the dot. -/
theorem suffix_of_last {A : Type} {p : A → Bool} {l : List A}
    (proper : (l.rtakeWhile p).length < l.length) :
    ∃ a, p a = false ∧ a :: l.rtakeWhile p <:+ l := by
  have whole : l.rdropWhile p ++ l.rtakeWhile p = l := List.rdropWhile_append_rtakeWhile
  have some' : l.rdropWhile p ≠ [] := by
    intro none
    rw [none, List.nil_append] at whole
    rw [whole] at proper
    exact Nat.lt_irrefl _ proper
  refine ⟨(l.rdropWhile p).getLast some', ?_, (l.rdropWhile p).dropLast, ?_⟩
  · simpa using List.rdropWhile_last_not p l some'
  · rw [← List.singleton_append, ← List.append_assoc, List.dropLast_append_getLast, whole]

theorem extension_cases (p : Path) : extension p = [] ∨
    ∃ e, extension p = '.' :: e ∧ '.' ∉ e ∧ '.' :: e <:+ filename p := by
  unfold extension
  by_cases up : filename p = "..".toList
  · left
    simp only [if_pos up]
  · by_cases short : ('.' :: (filename p).rtakeWhile (· ≠ '.')).length < (filename p).length
    · right
      refine ⟨(filename p).rtakeWhile (· ≠ '.'), ?_, ?_, ?_⟩
      · simp only [if_neg up, if_pos short]
      · intro mem
        have other := List.mem_rtakeWhile_imp mem
        simp at other
      · obtain ⟨a, dot, suffix⟩ := suffix_of_last (Nat.lt_of_succ_lt short)
        have same : a = '.' := by simpa using dot
        rwa [same] at suffix
    · left
      simp only [if_neg up, if_neg short]

theorem extension_suffix (p : Path) : extension p <:+ filename p := by
  rcases extension_cases p with none | ⟨e, here, _, suffix⟩
  · rw [none]
    exact List.nil_suffix
  · rwa [here]

theorem filename_suffix (p : Path) : filename p <:+ p := List.rtakeWhile_suffix _ _

theorem slash_not_mem_filename (p : Path) : '/' ∉ filename p := by
  intro mem
  have other := List.mem_rtakeWhile_imp mem
  simp at other

theorem replaceExtension_append (p : Path) : replaceExtension p ++ extension p = p := by
  obtain ⟨front, whole⟩ := (extension_suffix p).trans (filename_suffix p)
  have shorter : replaceExtension p = front := by
    unfold replaceExtension
    have length : p.length - (extension p).length = front.length := by
      have total := congrArg List.length whole
      rw [List.length_append] at total
      omega
    have cut : (front ++ extension p).take front.length = front := List.take_left
    rw [length]
    rwa [whole] at cut
  rw [shorter, whole]

/-- A name that goes on behind `_valet.` has an extension. -/
theorem extension_ne_nil (front back : List Char) (last : '/' ∉ back) :
    extension (front ++ "_valet".toList ++ '.' :: back) ≠ [] := by
  have kept : ∀ c ∈ "_valet".toList ++ '.' :: back, (decide (c ≠ '/')) = true := by
    intro c mem
    rcases List.mem_append.mp mem with word | rest
    · have plain : '/' ∉ "_valet".toList := by decide
      exact decide_eq_true (ne_of_mem_of_not_mem word plain)
    · rcases List.mem_cons.mp rest with rfl | mem
      · decide
      · simp only [decide_eq_true_eq]
        rintro rfl
        exact last mem
  have name : filename (front ++ "_valet".toList ++ '.' :: back) =
      filename front ++ "_valet".toList ++ '.' :: back := by
    unfold filename
    rw [List.append_assoc, rtakeWhile_keep kept, List.append_assoc]
  have behind : (filename front ++ "_valet".toList ++ '.' :: back).rtakeWhile (· ≠ '.') =
      back.rtakeWhile (· ≠ '.') := rtakeWhile_cut (by decide) _ _
  have other : filename front ++ "_valet".toList ++ '.' :: back ≠ "..".toList := by
    intro same
    have mem : '_' ∈ "..".toList := by
      rw [← same]
      simp
    revert mem
    decide
  have short : ('.' :: back.rtakeWhile (· ≠ '.')).length <
      (filename front ++ "_valet".toList ++ '.' :: back).length := by
    have le := (List.rtakeWhile_suffix (· ≠ '.') back).length_le
    have word : "_valet".toList.length = 6 := rfl
    simp only [List.length_append, List.length_cons, word]
    omega
  unfold extension
  simp only [name, behind, if_neg other, if_pos short]
  exact List.cons_ne_nil _ _

theorem eq_of_extension {p q : Path} (same : valetPath p = valetPath q)
    (ext : extension p = extension q) : p = q := by
  unfold valetPath at same
  rw [ext] at same
  have stem := List.append_cancel_right (List.append_cancel_right same)
  rw [← replaceExtension_append p, ← replaceExtension_append q, stem, ext]

/-- A file without an extension has its output for itself. -/
theorem valetPath_ne {p q : Path} (none : extension p = []) {e : List Char}
    (some' : extension q = '.' :: e) (dotless : '.' ∉ e) : valetPath p ≠ valetPath q := by
  intro same
  have whole : replaceExtension p = p := by
    have parts := replaceExtension_append p
    rwa [none, List.append_nil] at parts
  unfold valetPath at same
  rw [none, List.append_nil, whole, some'] at same
  have word : "_valet".toList <:+ replaceExtension q ++ "_valet".toList ++ '.' :: e := by
    rw [← same]
    exact List.suffix_append _ _
  have ext : '.' :: e <:+ replaceExtension q ++ "_valet".toList ++ '.' :: e :=
    List.suffix_append _ _
  have dot : '.' ∉ "_valet".toList := by decide
  rcases List.suffix_or_suffix_of_suffix word ext with inside | outside
  · rcases List.suffix_cons_iff.mp inside with equal | ⟨back, rfl⟩
    · exact dot (equal ▸ List.mem_cons_self)
    · -- The stem of `q` would be the beginning of `p`, and `p` would have an extension.
      have longer : p = replaceExtension q ++ "_valet".toList ++ '.' :: back := by
        apply (List.append_left_inj "_valet".toList).mp
        rw [same, List.append_assoc _ ('.' :: back), List.cons_append]
      have last : '/' ∉ back := by
        intro mem
        have here : '/' ∈ extension q := by
          rw [some']
          exact List.mem_cons_of_mem _ (List.mem_append_left _ mem)
        exact slash_not_mem_filename q ((extension_suffix q).subset here)
      apply extension_ne_nil (replaceExtension q) back last
      rw [← longer, none]
  · exact dot (outside.subset List.mem_cons_self)

/-- No two files have the same output. -/
theorem valetPath_injective : Function.Injective valetPath := by
  intro p q same
  rcases extension_cases p with none | ⟨e, here, dotless, _⟩
  · rcases extension_cases q with none' | ⟨e', here', dotless', _⟩
    · exact eq_of_extension same (none.trans none'.symm)
    · exact absurd same (valetPath_ne none here' dotless')
  · rcases extension_cases q with none' | ⟨e', here', dotless', _⟩
    · exact absurd same.symm (valetPath_ne none' here dotless)
    · -- Of the two dots neither stands behind the other.
      have suffix : extension p <:+ valetPath q := by
        rw [← same]
        exact List.suffix_append _ _
      have suffix' : extension q <:+ valetPath q := List.suffix_append _ _
      apply eq_of_extension same
      rw [here] at suffix ⊢
      rw [here'] at suffix' ⊢
      rcases List.suffix_or_suffix_of_suffix suffix suffix' with inside | inside
      · rcases List.suffix_cons_iff.mp inside with equal | behind
        · exact equal
        · exact absurd (behind.subset List.mem_cons_self) dotless'
      · rcases List.suffix_cons_iff.mp inside with equal | behind
        · exact equal.symm
        · exact absurd (behind.subset List.mem_cons_self) dotless

/-! ## The command -/

abbrev FileSystem := Builds.Store Path (List Char)

/-- A source as Clang has read it, and the names of its files; a number that belongs to no file
has none. -/
structure Input where
  source : SourceFile
  realPath : Nat → Option Path

/-- Clang, which may find no source at all, and what files may be opened for writing. -/
structure Environment where
  parse : FileSystem → Path → Option Input
  parseCode : FileSystem → List Char → Option SourceFile
  opens : Path → Bool

/-- The numbers of the files that a source has edits for. -/
def SourceFile.touched (file : SourceFile) (verbose : Bool) : Finset Nat :=
  (((file.edits verbose).getD []).map Edit.file).toFinset

/-- `buffer_begin()` to `buffer_end()`. -/
def inOrder (keys : Finset Nat) (out : Output) : List (Nat × List Char) :=
  keys.sort.filterMap fun fid => (out fid).map fun text => (fid, text)

/-- `keys` are those of the map of buffers. -/
structure Process where
  valet : Valet
  keys : Finset Nat

namespace Environment

variable (env : Environment)

/-- The loop that writes the files. With `false` the process ends, where a buffer has no file or
`bail` is called. -/
def writeBuffers (realPath : Nat → Option Path) :
    List (Nat × List Char) → List (Path × List Char) × Bool
  | [] => ([], true)
  | (fid, text) :: rest =>
    match realPath fid with
    | none => ([], false)
    | some p =>
      if env.opens (valetPath p) then
        let (ws, ok) := writeBuffers realPath rest
        ((valetPath p, text) :: ws, ok)
      else ([], false)

def handleSource (pr : Process) (input : Input) : List (Path × List Char) × Option Process :=
  match pr.valet.process input.source with
  | none => ([], none)
  | some (v, out) =>
    let keys := pr.keys ∪ input.source.touched pr.valet.verbose
    let (ws, ok) := env.writeBuffers input.realPath (inOrder keys out)
    (ws, if ok then some ⟨v, keys⟩ else none)

/-- `ClangTool::run`, which leaves out what it cannot open. -/
def runTool : Process → List Path → FileSystem → List (Path × List Char)
  | _, [], _ => []
  | pr, path :: paths, fs =>
    match env.parse fs path with
    | none => runTool pr paths fs
    | some input =>
      match env.handleSource pr input with
      | (ws, none) => ws
      | (ws, some pr') => ws ++ runTool pr' paths (fs.write ws)

/-- What goes to the standard output. -/
def runCode (verbose : Bool) (code : List Char) (fs : FileSystem) : List Char :=
  match env.parseCode fs code with
  | none => []
  | some source =>
    match (new verbose).process source with
    | none => []
    | some (_, out) => (inOrder (source.touched verbose) out).flatMap Prod.snd

/-- The files that are written, and the standard output. -/
def main (verbose : Bool) (files : List Path) (stdin : List Char) (fs : FileSystem) :
    List (Path × List Char) × List Char :=
  if files = [] ∨ ['-'] ∈ files then ([], env.runCode verbose stdin fs)
  else (env.runTool ⟨new verbose, ∅⟩ files fs, [])

end Environment

/-! Two copies of one source, where nothing else can be read. -/

def copies : List Path := ["/c.cc".toList, "/d.cc".toList]

def copiesOn : FileSystem := fun p => if p ∈ copies then some (coroFile.contents 1) else none

def copyAt (p : Path) : Input := ⟨coroFile, fun fid => if fid = 1 then some p else none⟩

def copying : Environment where
  parse fs path := if fs path = some (coroFile.contents 1) then some (copyAt path) else none
  parseCode _ code := if code = coroFile.contents 1 then some coroFile else none
  opens _ := true

/-! ## What is written -/

section writes

variable {env : Environment} {realPath : Nat → Option Path} {w : Path × List Char}

theorem writeBuffers_mem {bufs : List (Nat × List Char)}
    (mem : w ∈ (env.writeBuffers realPath bufs).1) :
    ∃ fid p, (fid, w.2) ∈ bufs ∧ realPath fid = some p ∧ w.1 = valetPath p := by
  induction bufs with
  | nil => cases mem
  | cons b bufs ih =>
    obtain ⟨fid, text⟩ := b
    unfold Environment.writeBuffers at mem
    cases known : realPath fid with
    | none =>
      rw [known] at mem
      cases mem
    | some p =>
      simp only [known] at mem
      split at mem
      · rcases List.mem_cons.mp mem with rfl | mem
        · exact ⟨fid, p, List.mem_cons_self, known, rfl⟩
        · obtain ⟨fid', p', here, known', named⟩ := ih mem
          exact ⟨fid', p', List.mem_cons_of_mem _ here, known', named⟩
      · cases mem

theorem handleSource_mem {pr : Process} {input : Input} (mem : w ∈ (env.handleSource pr input).1) :
    ∃ fid p, input.realPath fid = some p ∧ w.1 = valetPath p := by
  unfold Environment.handleSource at mem
  cases done : pr.valet.process input.source with
  | none =>
    rw [done] at mem
    cases mem
  | some result =>
    simp only [done] at mem
    obtain ⟨fid, p, _, known, named⟩ := writeBuffers_mem mem
    exact ⟨fid, p, known, named⟩

theorem runTool_mem {pr : Process} {files : List Path} {fs : FileSystem}
    (mem : w ∈ env.runTool pr files fs) : ∃ p, w.1 = valetPath p := by
  induction files generalizing pr fs with
  | nil => cases mem
  | cons path files ih =>
    unfold Environment.runTool at mem
    cases read : env.parse fs path with
    | none =>
      simp only [read] at mem
      exact ih mem
    | some input =>
      simp only [read] at mem
      cases handled : env.handleSource pr input with
      | mk ws next =>
        have own : ∀ w ∈ ws, ∃ p, w.1 = valetPath p := by
          intro w' mem'
          have here : w' ∈ (env.handleSource pr input).1 := by rwa [handled]
          obtain ⟨_, p, _, named⟩ := handleSource_mem here
          exact ⟨p, named⟩
        cases next with
        | none =>
          simp only [handled] at mem
          exact own w mem
        | some pr' =>
          simp only [handled] at mem
          exact (List.mem_append.mp mem).elim (own w) ih

theorem main_mem {verbose : Bool} {files : List Path} {stdin : List Char} {fs : FileSystem}
    (mem : w ∈ (env.main verbose files stdin fs).1) : w.1 ∈ Set.range valetPath := by
  unfold Environment.main at mem
  split at mem
  · cases mem
  · obtain ⟨p, named⟩ := runTool_mem mem
    exact ⟨p, named.symm⟩

/-- A run on one source. -/
theorem main_single {verbose : Bool} {s : Path} {fs : FileSystem}
    (mem : w ∈ (env.main verbose [s] [] fs).1) :
    ∃ input fid p v out, env.parse fs s = some input ∧
      (new verbose).process input.source = some (v, out) ∧ out fid = some w.2 ∧
      input.realPath fid = some p ∧ w.1 = valetPath p := by
  unfold Environment.main at mem
  split at mem
  · cases mem
  · unfold Environment.runTool at mem
    cases read : env.parse fs s with
    | none =>
      simp only [read] at mem
      cases mem
    | some input =>
      have single : w ∈ (env.handleSource ⟨new verbose, ∅⟩ input).1 := by
        simp only [read] at mem
        split at mem
        · rename_i handled
          rwa [handled]
        · rename_i handled
          rw [Environment.runTool, List.append_nil] at mem
          rwa [handled]
      unfold Environment.handleSource at single
      cases done : (new verbose).process input.source with
      | none =>
        simp only [done] at single
        cases single
      | some result =>
        simp only [done] at single
        obtain ⟨fid, p, here, known, named⟩ := writeBuffers_mem single
        obtain ⟨fid', _, buffer⟩ := List.mem_filterMap.mp here
        obtain ⟨text, some', same⟩ := Option.map_eq_some_iff.mp buffer
        cases same
        exact ⟨input, _, p, result.1, result.2, rfl, done, some', known, named⟩

end writes

/-! ## One source -/

section single

variable {env : Environment} {verbose : Bool} {s : Path} {fs : FileSystem} {input : Input}
  {v : Valet} {out : Output}

/-- The keys are those of the buffers. -/
theorem touched_spec {file : SourceFile} (done : (new verbose).process file = some (v, out))
    (fid : Nat) : out fid ≠ none ↔ fid ∈ file.touched verbose := by
  obtain ⟨edits, buffers, asked, run, processed⟩ := process_new verbose file
  cases processed.symm.trans done
  have unused := (insertText_run run fid).1
  simp only [true_and] at unused
  have keys : fid ∈ file.touched verbose ↔ ∃ e ∈ edits, e.file = fid := by
    simp only [SourceFile.touched, asked, Option.getD_some, List.mem_toFinset, List.mem_map]
  rw [keys, Ne, Option.map_eq_none_iff, unused]
  simp only [not_forall, not_not, exists_prop]

theorem mem_inOrder {file : SourceFile} (done : (new verbose).process file = some (v, out))
    (fid : Nat) (text : List Char) :
    (fid, text) ∈ inOrder (file.touched verbose) out ↔ out fid = some text := by
  unfold inOrder
  rw [List.mem_filterMap]
  constructor
  · rintro ⟨fid', _, buffer⟩
    obtain ⟨text', here, same⟩ := Option.map_eq_some_iff.mp buffer
    cases same
    exact here
  · intro here
    have key : fid ∈ file.touched verbose := (touched_spec done fid).mp (by rw [here]; nofun)
    exact ⟨fid, (Finset.mem_sort _).mpr key, by rw [here]; rfl⟩

theorem touched_of_mem {file : SourceFile} (done : (new verbose).process file = some (v, out))
    {b : Nat × List Char} (mem : b ∈ inOrder (file.touched verbose) out) :
    b.1 ∈ file.touched verbose := by
  apply (touched_spec done b.1).mp
  rw [(mem_inOrder done b.1 b.2).mp mem]
  nofun

theorem inOrder_nodup (keys : Finset Nat) (out : Output) :
    ((inOrder keys out).map Prod.fst).Nodup := by
  unfold inOrder
  rw [List.map_filterMap]
  apply (keys.sort_nodup _).filterMap
  intro fid fid' b mem mem'
  simp only [Option.mem_def, Option.map_map, Option.map_eq_some_iff, Function.comp_apply]
    at mem mem'
  obtain ⟨_, _, same⟩ := mem
  obtain ⟨_, _, same'⟩ := mem'
  exact same.trans same'.symm

/-- Each of these files has a name, and its output can be written. -/
def Writable (env : Environment) (input : Input) (verbose : Bool) : Prop :=
  ∀ fid ∈ input.source.touched verbose, ∃ p, input.realPath fid = some p ∧
    env.opens (valetPath p) = true

theorem writeBuffers_all {realPath : Nat → Option Path} {bufs : List (Nat × List Char)}
    (all : ∀ b ∈ bufs, ∃ p, realPath b.1 = some p ∧ env.opens (valetPath p) = true) :
    env.writeBuffers realPath bufs =
      (bufs.map fun b => (valetPath ((realPath b.1).getD []), b.2), true) := by
  induction bufs with
  | nil => rfl
  | cons b bufs ih =>
    obtain ⟨fid, text⟩ := b
    obtain ⟨p, known, opens⟩ := all _ List.mem_cons_self
    have rest := ih fun b mem => all b (List.mem_cons_of_mem _ mem)
    simp only at known
    simp only [Environment.writeBuffers, known, opens, if_true, rest, List.map_cons,
      Option.getD_some]

theorem main_eq (read : env.parse fs s = some input) (source : s ≠ ['-'])
    (writable : Writable env input verbose)
    (done : (new verbose).process input.source = some (v, out)) :
    (env.main verbose [s] [] fs).1 = (inOrder (input.source.touched verbose) out).map fun b =>
      (valetPath ((input.realPath b.1).getD []), b.2) := by
  have named : ∀ b ∈ inOrder (input.source.touched verbose) out,
      ∃ p, input.realPath b.1 = some p ∧ env.opens (valetPath p) = true := by
    intro b mem
    exact writable b.1 (touched_of_mem done mem)
  have files : ¬ ([s] = [] ∨ ['-'] ∈ [s]) := by simp [Ne.symm source]
  have verbose' : (new verbose).verbose = verbose := rfl
  have handled : env.handleSource ⟨new verbose, ∅⟩ input =
      ((inOrder (input.source.touched verbose) out).map fun b =>
        (valetPath ((input.realPath b.1).getD []), b.2),
        some ⟨v, input.source.touched verbose⟩) := by
    simp only [Environment.handleSource, done, verbose', Finset.empty_union,
      writeBuffers_all named, if_true]
  simp only [Environment.main, if_neg files, Environment.runTool, read, handled, List.append_nil]

/-- Different files have different outputs. -/
theorem outputs_nodup (writable : Writable env input verbose)
    (apart : ∀ fid ∈ input.source.touched verbose, ∀ fid' ∈ input.source.touched verbose,
      input.realPath fid = input.realPath fid' → fid = fid')
    (done : (new verbose).process input.source = some (v, out)) :
    (((inOrder (input.source.touched verbose) out).map fun b =>
      (valetPath ((input.realPath b.1).getD []), b.2)).map Prod.fst).Nodup := by
  have numbers : (inOrder (input.source.touched verbose) out).map
      (fun b => valetPath ((input.realPath b.1).getD [])) =
      ((inOrder (input.source.touched verbose) out).map Prod.fst).map
        fun fid => valetPath ((input.realPath fid).getD []) := by
    rw [List.map_map]
    rfl
  have key : ∀ fid ∈ (inOrder (input.source.touched verbose) out).map Prod.fst,
      fid ∈ input.source.touched verbose := by
    intro fid mem
    obtain ⟨b, here, rfl⟩ := List.mem_map.mp mem
    exact touched_of_mem done here
  rw [List.map_map]
  refine Eq.mpr (congrArg List.Nodup numbers) ?_
  apply List.Nodup.map_on _ (inOrder_nodup _ _)
  intro fid mem fid' mem' same
  obtain ⟨p, known, _⟩ := writable fid (key fid mem)
  obtain ⟨p', known', _⟩ := writable fid' (key fid' mem')
  apply apart fid (key fid mem) fid' (key fid' mem')
  rw [known, known'] at same ⊢
  exact congrArg some (valetPath_injective same)

/-- Each file with edits has its output written, and nothing else happens to the files. -/
theorem main_writes_exactly (read : env.parse fs s = some input) (source : s ≠ ['-'])
    (writable : Writable env input verbose)
    (apart : ∀ fid ∈ input.source.touched verbose, ∀ fid' ∈ input.source.touched verbose,
      input.realPath fid = input.realPath fid' → fid = fid') :
    ∃ v out, (new verbose).process input.source = some (v, out) ∧
      (∀ fid p text, out fid = some text → input.realPath fid = some p →
        fs.write (env.main verbose [s] [] fs).1 (valetPath p) = some text) ∧
      ∀ q, (∀ fid p, out fid ≠ none → input.realPath fid = some p → q ≠ valetPath p) →
        fs.write (env.main verbose [s] [] fs).1 q = fs q := by
  obtain ⟨v, out, done⟩ : ∃ v out, (new verbose).process input.source = some (v, out) := by
    obtain ⟨_, _, _, _, done⟩ := process_new verbose input.source
    exact ⟨_, _, done⟩
  refine ⟨v, out, done, ?_, ?_⟩
  · intro fid p text here known
    have mem := (mem_inOrder done fid text).mpr here
    rw [main_eq read source writable done, Builds.write_apply,
      Builds.written_of_mem (outputs_nodup writable apart done) _]
    · rfl
    · exact List.mem_map.mpr ⟨(fid, text), mem, by rw [known]; rfl⟩
  · intro q other
    rw [Builds.write_apply]
    cases h : Builds.written (env.main verbose [s] [] fs).1 q with
    | none => rfl
    | some text =>
      obtain ⟨input', fid, p, v, out, read', done', here, known, named⟩ :=
        main_single (Builds.written_mem h)
      cases read.symm.trans read'
      cases done.symm.trans done'
      exact absurd named (other fid p (by rw [here]; nofun) known)

theorem main_writes_exactly_copy : ∃ v out, (new false).process coroFile = some (v, out) ∧
    (∀ fid p text, out fid = some text → (copyAt "/c.cc".toList).realPath fid = some p →
      copiesOn.write (copying.main false ["/c.cc".toList] [] copiesOn).1 (valetPath p) =
        some text) ∧
    ∀ q, (∀ fid p, out fid ≠ none → (copyAt "/c.cc".toList).realPath fid = some p →
      q ≠ valetPath p) →
      copiesOn.write (copying.main false ["/c.cc".toList] [] copiesOn).1 q = copiesOn q := by
  have one : (copyAt "/c.cc".toList).source.touched false = {1} := by decide
  have here : "/c.cc".toList ∈ copies := by decide
  have read : copying.parse copiesOn "/c.cc".toList = some (copyAt "/c.cc".toList) := by
    simp only [copying, copiesOn, if_pos here, if_true]
  have source : "/c.cc".toList ≠ ['-'] := by decide
  have writable : Writable copying (copyAt "/c.cc".toList) false := by
    intro fid mem
    rw [one, Finset.mem_singleton] at mem
    exact ⟨"/c.cc".toList, if_pos mem, rfl⟩
  apply main_writes_exactly read source writable
  intro fid mem fid' mem' _
  rw [one, Finset.mem_singleton] at mem mem'
  exact mem.trans mem'.symm

end single

/-! ## A run for each source -/

namespace Environment

variable (env : Environment) (verbose : Bool)

/-- `valet s` -/
def job : Builds.Jobs Path Path (List Char) := fun s fs => (env.main verbose [s] [] fs).1

/-- Clang opens no output of Valet for these sources. -/
def Unread (sources : Set Path) : Prop :=
  ∀ s ∈ sources, ∀ fs fs', Builds.AgreeOff (Set.range valetPath) fs fs' →
    env.parse fs s = env.parse fs' s

/-- What the run on `s` leaves as the output of the file `p`. -/
def rewritten (fs : FileSystem) (s p : Path) : Option (List Char) :=
  Builds.written (env.job verbose s fs) (valetPath p)

end Environment

section make

variable {env : Environment} {verbose : Bool} {sources : Set Path} {fs : FileSystem}

theorem job_congr {fs fs' : FileSystem} {s : Path} (same : env.parse fs s = env.parse fs' s) :
    env.job verbose s fs = env.job verbose s fs' := by
  unfold Environment.job Environment.main Environment.runTool
  rw [same]
  split
  · rfl
  · simp only [Environment.runTool]

theorem layered (unread : env.Unread sources) :
    Builds.Layered (env.job verbose) (Set.range valetPath) sources where
  writes _ _ _ _ mem := main_mem mem
  reads s mem fs fs' same := job_congr (unread s mem fs fs' same)

theorem rewritten_some {s p : Path} {text : List Char}
    (h : env.rewritten verbose fs s p = some text) : ∃ input fid v out,
      env.parse fs s = some input ∧ (new verbose).process input.source = some (v, out) ∧
      out fid = some text ∧ input.realPath fid = some p := by
  obtain ⟨input, fid, p', v, out, read, done, here, known, named⟩ :=
    main_single (Builds.written_mem h)
  rw [valetPath_injective named]
  exact ⟨input, fid, v, out, read, done, here, known⟩

/-- Sources may be rewritten in any order, and again, just if those that have edits for one
file come to the same text for it. -/
theorem make_any_order_iff (unread : env.Unread sources) (fs : FileSystem) :
    Builds.AnyOrder (env.job verbose) sources fs ↔
      ∀ s ∈ sources, ∀ s' ∈ sources, ∀ p text text', env.rewritten verbose fs s p = some text →
        env.rewritten verbose fs s' p = some text' → text = text' := by
  rw [Builds.anyOrder_iff (layered unread)]
  constructor
  · intro agree s mem s' mem' p
    exact agree s mem s' mem' (valetPath p)
  · intro agree s mem s' mem' q text text' here here'
    obtain ⟨p, rfl⟩ := main_mem (Builds.written_mem here)
    exact agree s mem s' mem' p text text' here here'

/-- No file has edits for two sources. -/
def Apart (env : Environment) (verbose : Bool) (sources : Set Path) (fs : FileSystem) : Prop :=
  ∀ s ∈ sources, ∀ s' ∈ sources, ∀ p, env.rewritten verbose fs s p ≠ none →
    env.rewritten verbose fs s' p ≠ none → s = s'

theorem agree_of_apart (apart : Apart env verbose sources fs) : ∀ s ∈ sources, ∀ s' ∈ sources,
    ∀ p text text', env.rewritten verbose fs s p = some text →
      env.rewritten verbose fs s' p = some text' → text = text' := by
  intro s mem s' mem' p text text' here here'
  have one : s = s' := apart s mem s' mem' p (by rw [here]; nofun) (by rw [here']; nofun)
  subst one
  exact Option.some.inj (here.symm.trans here')

end make

section copies

theorem underscore_mem_valetPath (p : Path) : '_' ∈ valetPath p := by
  simp [valetPath]

theorem copies_unread : copying.Unread {s | s ∈ copies} := by
  intro s mem fs fs' same
  have outside : s ∉ Set.range valetPath := by
    rintro ⟨p, rfl⟩
    have plain : ∀ s ∈ copies, '_' ∉ s := by decide
    exact plain _ mem (underscore_mem_valetPath p)
  simp only [copying, same s outside]

theorem copies_apart (verbose : Bool) (fs : FileSystem) :
    Apart copying verbose {s | s ∈ copies} fs := by
  have own : ∀ s p, copying.rewritten verbose fs s p ≠ none → s = p := by
    intro s p some'
    obtain ⟨text, here⟩ := Option.ne_none_iff_exists'.mp some'
    obtain ⟨input, fid, _, _, read, _, _, known⟩ := rewritten_some here
    simp only [copying] at read
    split at read
    · cases read
      simp only [copyAt] at known
      split at known
      · exact Option.some.inj known
      · cases known
    · cases read
  intro s _ s' _ p here here'
  exact (own s p here).trans (own s' p here').symm

theorem make_any_order_copies :
    Builds.AnyOrder (copying.job false) {s | s ∈ copies} copiesOn :=
  (make_any_order_iff copies_unread copiesOn).mpr (agree_of_apart (copies_apart false copiesOn))

end copies

end Valor.Valet
