import Mathlib.Data.List.Basic

/-! The compiler options that Valet hands to Clang, for a text from standard input and for
the files of a compilation database. Of several options of one kind the last is in force. -/
namespace Valor.Valet.Options

abbrev CommandLineArguments := List String

def std : String := "-std=c++20"

/-- The place is computed from the emptiness of the list alone. -/
def ccOpts (verbose : Bool) (args : CommandLineArguments) : CommandLineArguments :=
  let it := if args.isEmpty then 0 else 1
  let ret := args.insertIdx it std
  if verbose then ret.insertIdx (it + 1) "-v" else ret

def appendArgs (optI : List String) (opts : CommandLineArguments) : CommandLineArguments :=
  opts ++ optI.map ("-I" ++ ·)

abbrev ArgumentsAdjuster := CommandLineArguments → String → CommandLineArguments

/-- What the user gave besides the sources. `database` stands behind `--`; these options make
the compilation database, since `main` always ends the command line with `--`. -/
structure UserOptions where
  verbose : Bool
  optI : List String
  database : CommandLineArguments
  extraArg : CommandLineArguments

def UserOptions.all (o : UserOptions) : CommandLineArguments := o.database ++ o.extraArg

/-- Clang's parser of the command line, as its documentation has it. Without a source, which
`ZeroOrMore` allows, it ends before it makes the adjuster of `--extra-arg`. The commands are
those that `ClangTool` hands on, less `-fsyntax-only`, which stands in both paths. -/
structure CommonOptionsParser (o : UserOptions) (sources : List String) where
  argumentsAdjuster : Option ArgumentsAdjuster
  tool : String
  command : String → CommandLineArguments
  noOption : ∀ file ∈ sources, "-".toList.isPrefixOf file.toList → file = "-"
  unadjusted : sources = [] → argumentsAdjuster = none
  adjusted : sources ≠ [] → ∃ adjuster, argumentsAdjuster = some adjuster ∧
    ∀ args file, "--" ∉ args → adjuster args file = args ++ o.extraArg
  commands : ∀ file ∈ sources, command file = tool :: (o.database ++ file :: o.extraArg)

variable {o : UserOptions} {sources files : List String}

/-- Standard input is read if no source is given, or one of them is `-`. -/
def readsStdin (sources : List String) : Bool := sources.isEmpty || sources.contains "-"

def extraArgs (p : CommonOptionsParser o sources) : CommandLineArguments :=
  match p.argumentsAdjuster with
  | some adjuster => adjuster [] "stdin.cc"
  | none => []

/-- `main` on standard input. -/
def stdinArgs (p : CommonOptionsParser o sources) : CommandLineArguments :=
  appendArgs o.optI (ccOpts o.verbose (extraArgs p))

/-- The adjuster that `main` gives to the tool, on the command of a file. -/
def fileArgs (p : CommonOptionsParser o sources) (file : String) : CommandLineArguments :=
  appendArgs o.optI (ccOpts o.verbose (p.command file))

/-! ## Options in force -/

section effective

variable {A : Type} {p : A → Bool} {opts later : List A}

def effective (p : A → Bool) (opts : List A) : Option A := (opts.filter p).getLast?

theorem effective_append (p : A → Bool) (opts later : List A) :
    effective p (opts ++ later) = (effective p later).or (effective p opts) := by
  rw [effective, List.filter_append, List.getLast?_append]
  rfl

theorem effective_none (other : ∀ o ∈ later, p o = false) : effective p later = none := by
  have empty : later.filter p = [] := List.filter_eq_nil_iff.mpr fun o mem => by simp [other o mem]
  rw [effective, empty]
  rfl

theorem effective_append_other (opts : List A) (other : ∀ o ∈ later, p o = false) :
    effective p (opts ++ later) = effective p opts := by
  rw [effective_append, effective_none other, Option.none_or]

theorem effective_append_some {o : A} (h : effective p later = some o) :
    effective p (opts ++ later) = some o := by
  rw [effective_append, h, Option.some_or]

end effective

def isStd (o : String) : Bool := "-std=".toList.isPrefixOf o.toList

theorem isStd_include (i : String) : isStd ("-I" ++ i) = false := by
  simp [isStd, List.isPrefixOf]

theorem includes_not_std (optI : List String) : ∀ o ∈ optI.map ("-I" ++ ·), isStd o = false := by
  intro o mem
  obtain ⟨i, _, rfl⟩ := List.mem_map.mp mem
  exact isStd_include i

/-! ## The two paths -/

def prepended (verbose : Bool) : List String := std :: if verbose then ["-v"] else []

/-- The options of the user are in force: Valet's own come before them, behind the tool.
`given` is the user's part of the list, in which the name of the file may stand. -/
structure UserWins (o : UserOptions) (given opts : CommandLineArguments) : Prop where
  order : opts = prepended o.verbose ++ given ++ o.optI.map ("-I" ++ ·)
  std : ∀ s, effective isStd o.all = some s → effective isStd opts = some s

/-- On both paths, and the paths agree about every kind of option. The same options are given
to a run on standard input and to one on files. -/
structure BothPaths (p : CommonOptionsParser o sources) (q : CommonOptionsParser o files) :
    Prop where
  stdin : UserWins o o.all (stdinArgs p)
  file : ∀ file ∈ files, ∃ opts, fileArgs q file = q.tool :: opts ∧
    UserWins o (o.database ++ file :: o.extraArg) opts
  same : ∀ file ∈ files, ∀ kind : String → Bool, kind file = false →
    effective kind (stdinArgs p) = effective kind (fileArgs q file).tail

theorem ccOpts_nil (verbose : Bool) : ccOpts verbose [] = prepended verbose := by
  cases verbose <;> rfl

theorem ccOpts_cons (verbose : Bool) (first : String) (rest : CommandLineArguments) :
    ccOpts verbose (first :: rest) = first :: (prepended verbose ++ rest) := by
  cases verbose <;> simp [ccOpts, prepended]

theorem extraArgs_eq (p : CommonOptionsParser o sources) :
    extraArgs p = if sources = [] then [] else o.extraArg := by
  rw [extraArgs]
  split_ifs with none
  · rw [p.unadjusted none]
  · obtain ⟨adjuster, given, appends⟩ := p.adjusted none
    simp only [given]
    rw [appends [] _ List.not_mem_nil, List.nil_append]

/-- The name of a file is no option, wherever it stands. -/
theorem effective_file {kind : String → Bool} {file : String} (other : kind file = false)
    (o : UserOptions) :
    effective kind (o.database ++ file :: o.extraArg) = effective kind o.all := by
  have unnamed : effective kind [file] = none := effective_none (by simpa using other)
  rw [UserOptions.all, effective_append, effective_append, ← List.singleton_append,
    effective_append, unnamed, Option.or_none]

theorem not_isStd (q : CommonOptionsParser o files) {file : String} (mem : file ∈ files)
    (stdin : readsStdin files = false) : isStd file = false := by
  rw [← Bool.not_eq_true]
  intro option
  rw [isStd, List.isPrefixOf_iff_prefix] at option
  have dash : file = "-" := by
    refine q.noOption file mem ?_
    rw [List.isPrefixOf_iff_prefix]
    exact (by decide : "-".toList <+: "-std=".toList).trans option
  rw [readsStdin, Bool.or_eq_false_iff, List.contains_eq_mem, decide_eq_false_iff_not] at stdin
  exact stdin.2 (dash ▸ mem)

/-- The order decides which option is in force. -/
theorem userWins_of_order {given opts : CommandLineArguments}
    (order : opts = prepended o.verbose ++ given ++ o.optI.map ("-I" ++ ·))
    (user : effective isStd given = effective isStd o.all) : UserWins o given opts := by
  refine ⟨order, fun s wanted => ?_⟩
  rw [order, effective_append_other _ (includes_not_std o.optI)]
  exact effective_append_some (user.trans wanted)

theorem fileArgs_eq (q : CommonOptionsParser o files) {file : String} (mem : file ∈ files) :
    fileArgs q file = q.tool :: (prepended o.verbose ++ (o.database ++ file :: o.extraArg) ++
      o.optI.map ("-I" ++ ·)) := by
  rw [fileArgs, appendArgs, q.commands file mem, ccOpts_cons, List.cons_append]

/-- Behind the first option of the user Valet's own stand at their place only if they look
the same. -/
theorem order_cons_iff (verbose : Bool) (first : String) (rest : List String) :
    first :: (prepended verbose ++ rest) = prepended verbose ++ first :: rest ↔
      verbose = false ∧ first = std := by
  cases verbose with
  | false =>
    simp only [prepended, Bool.false_eq_true, if_false, List.cons_append, List.nil_append,
      List.cons.injEq, true_and]
    constructor
    · exact And.left
    · intro same
      exact ⟨same, same.symm, trivial⟩
  | true =>
    simp only [prepended, if_true, List.cons_append, List.nil_append, List.cons.injEq,
      Bool.true_eq_false, false_and, iff_false]
    rintro ⟨_, impossible, _⟩
    exact absurd impossible (by decide)

/-- The list for standard input is as it should be if nothing was given, or what was given
begins like Valet's own options and reached the list as a whole. -/
theorem stdin_order_iff (p : CommonOptionsParser o sources) :
    stdinArgs p = prepended o.verbose ++ o.all ++ o.optI.map ("-I" ++ ·) ↔
      o.all = [] ∨
        sources ≠ [] ∧ o.database = [] ∧ o.verbose = false ∧ o.extraArg.head? = some std := by
  rw [stdinArgs, appendArgs, List.append_left_inj, extraArgs_eq, UserOptions.all,
    List.append_eq_nil_iff]
  by_cases none : sources = []
  · rw [if_pos none, ccOpts_nil, List.self_eq_append_right, List.append_eq_nil_iff]
    simp [none]
  · rw [if_neg none]
    cases extra : o.extraArg with
    | nil => simp [ccOpts_nil]
    | cons first rest =>
      rw [ccOpts_cons]
      constructor
      · intro order
        have lengths := congrArg List.length order
        simp only [List.length_cons, List.length_append] at lengths
        have alone : o.database = [] := List.length_eq_zero_iff.mp (by omega)
        rw [alone, List.nil_append, order_cons_iff] at order
        exact .inr ⟨none, alone, order.1, congrArg some order.2⟩
      · rintro (⟨_, impossible⟩ | ⟨_, alone, quiet, same⟩)
        · cases impossible
        · rw [alone, List.nil_append, order_cons_iff]
          exact ⟨quiet, Option.some.inj same⟩

/-- The standard in force on standard input: the user's if it is given behind another option. -/
theorem stdin_std (p : CommonOptionsParser o sources) : effective isStd (stdinArgs p) =
    (effective isStd (extraArgs p).tail).or (some std) := by
  have own : effective isStd (prepended o.verbose) = some std := by
    cases o.verbose <;> decide
  rw [stdinArgs, appendArgs, effective_append_other _ (includes_not_std o.optI)]
  cases extraArgs p with
  | nil =>
    rw [ccOpts_nil, own]
    rfl
  | cons first rest =>
    rw [ccOpts_cons, ← List.singleton_append, effective_append, effective_append, own]
    simp

/-! `valet --extra-arg=-std=c++23`, and a source -/

def newerStd : UserOptions := ⟨false, [], [], ["-std=c++23"]⟩

def parser (o : UserOptions) (source : String)
    (noOption : "-".toList.isPrefixOf source.toList → source = "-") :
    CommonOptionsParser o [source] where
  argumentsAdjuster := some fun args _ => args ++ o.extraArg
  tool := "clang-tool"
  command file := "clang-tool" :: (o.database ++ file :: o.extraArg)
  noOption file mem := by
    cases List.mem_singleton.mp mem
    exact noOption
  unadjusted := by simp
  adjusted _ := ⟨_, rfl, fun _ _ _ => rfl⟩
  commands _ _ := rfl

example : stdinArgs (parser ⟨true, ["include"], [], ["-std=c++23"]⟩ "-" (by decide)) =
    ["-std=c++23", "-std=c++20", "-v", "-Iinclude"] := by decide

end Valor.Valet.Options
