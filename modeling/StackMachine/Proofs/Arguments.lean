import StackMachine.CommandLine.Session

/-! Arguments and what they ask for.

Arguments come in groups of one or two (`Group`). They are followed if they are made of groups of which one names a
file. Then the options say what the groups say, in whatever order these are, except that of several bounds the last one
counts. Other arguments have a first place where no group can be read (`Stops`), and what is there decides the refusal.
Main statement: `CommandLine.arguments_exact`. -/

namespace StackMachine.CommandLine

/-- One or two arguments that belong together. -/
inductive Group where
  | list
  | checkOnly
  | limit (argument : String) (n : Nat) (reads : Text.count? argument.toList = some n) (positive : 0 < n)
  | file (path : String) (plain : path.toList.head? ≠ some '-')

namespace Group

def arguments : Group → List String
  | .list => ["--disassemble"]
  | .checkOnly => ["--check"]
  | .limit argument _ _ _ => ["--max-stack", argument]
  | .file path _ => [path]

/-- The file that a group names. -/
def file? : Group → Option String
  | .file path _ => some path
  | _ => none

/-- The bound that a group sets. -/
def bound? : Group → Option Nat
  | .limit _ n _ _ => some n
  | _ => none

end Group

def argumentsOf (groups : List Group) : List String :=
  groups.flatMap Group.arguments

def filesOf (groups : List Group) : List String :=
  groups.filterMap Group.file?

/-- The bound that is set last, or else the one that needs no setting. -/
def boundOf (groups : List Group) : Nat :=
  (groups.filterMap Group.bound?).getLastD defaultLimit

/-- The arguments are those of the groups, one of which names a file. -/
structure Splits (arguments : List String) (groups : List Group) : Prop where
  arguments_eq : arguments = argumentsOf groups
  one_file : (filesOf groups).length = 1

/-- The options say what the groups say. -/
structure Asked (groups : List Group) (options : Options) : Prop where
  file : filesOf groups = [options.file]
  list : options.list = true ↔ .list ∈ groups
  checkOnly : options.checkOnly = true ↔ .checkOnly ∈ groups
  limit : options.limit = boundOf groups

/-- What is refused and why, where groups that name `files` have been read before. -/
inductive Stops (files : List String) : List String → Refusal → Prop where
  | help {argument : String} {rest : List String} (asks : argument = "--help" ∨ argument = "-h") :
      Stops files (argument :: rest) .help
  | badLimit {rest : List String}
      (bad : ∀ argument ∈ rest.head?, ∀ n, Text.count? argument.toList = some n → n = 0) :
      Stops files ("--max-stack" :: rest) .badLimit
  | unknownOption {argument : String} {rest : List String} (option : argument.toList.head? = some '-')
      (unknown : argument ∉ ["--disassemble", "--check", "--max-stack", "--help", "-h"]) :
      Stops files (argument :: rest) (.unknownOption argument)
  | secondFile {path : String} {rest : List String} (plain : path.toList.head? ≠ some '-') (taken : files ≠ []) :
      Stops files (path :: rest) .secondFile
  | noFile (none : files = []) : Stops files [] .noFile

/-- Groups with one file at most stand before what is refused. -/
def Refused (arguments : List String) (refusal : Refusal) : Prop :=
  ∃ groups rest, arguments = argumentsOf groups ++ rest ∧ (filesOf groups).length ≤ 1 ∧
    Stops (filesOf groups) rest refusal

/-- Help is asked for, and what stands before has nothing wrong in it: there are only groups, with one file at most. -/
def AsksForHelp (arguments : List String) : Prop :=
  ∃ groups argument rest, arguments = argumentsOf groups ++ argument :: rest ∧ (filesOf groups).length ≤ 1 ∧
    (argument = "--help" ∨ argument = "-h")

/-! ### Groups -/

@[simp] theorem argumentsOf_nil : argumentsOf [] = [] := rfl

@[simp] theorem argumentsOf_cons (group : Group) (groups : List Group) :
    argumentsOf (group :: groups) = group.arguments ++ argumentsOf groups :=
  List.flatMap_cons

@[simp] theorem filesOf_nil : filesOf [] = [] := rfl

theorem filesOf_cons (group : Group) (groups : List Group) :
    filesOf (group :: groups) = group.file?.toList ++ filesOf groups := by
  cases h : group.file? <;> simp [filesOf, h]

namespace Asked

variable {groups groups' : List Group} {options options' : Options}

theorem unique (h : Asked groups options) (h' : Asked groups options') : options = options' := by
  obtain ⟨file, list, checkOnly, limit⟩ := options
  obtain ⟨file', list', checkOnly', limit'⟩ := options'
  obtain rfl : file = file' := List.singleton_inj.mp (h.file.symm.trans h'.file)
  obtain rfl : list = list' := Bool.eq_iff_iff.mpr (h.list.trans h'.list.symm)
  obtain rfl : checkOnly = checkOnly' := Bool.eq_iff_iff.mpr (h.checkOnly.trans h'.checkOnly.symm)
  obtain rfl : limit = limit' := h.limit.trans h'.limit.symm
  rfl

/-- Only the bound depends on the order. -/
theorem perm (h : Asked groups options) (hperm : groups.Perm groups') (hbound : boundOf groups' = boundOf groups) :
    Asked groups' options where
  file := by
    have hfiles := hperm.filterMap Group.file?
    rw [show groups.filterMap Group.file? = [options.file] from h.file] at hfiles
    exact (List.singleton_perm.mp hfiles).symm
  list := h.list.trans hperm.mem_iff
  checkOnly := h.checkOnly.trans hperm.mem_iff
  limit := h.limit.trans hbound.symm

end Asked

/-! ### What is read -/

theorem limit?_eq_some_iff {argument : String} {n : Nat} :
    limit? argument = some n ↔ Text.count? argument.toList = some n ∧ 0 < n := by
  simp [limit?, Option.filter_eq_some_iff]

namespace Request

/-- What has been asked for with one more group. -/
def add (request : Request) : Group → Request
  | .list => { request with list := true }
  | .checkOnly => { request with checkOnly := true }
  | .limit _ n _ _ => { request with limit := n }
  | .file path _ => { request with file := some path }

def addAll (request : Request) (groups : List Group) : Request :=
  groups.foldl add request

@[simp] theorem addAll_nil (request : Request) : request.addAll [] = request := rfl

@[simp] theorem addAll_cons (request : Request) (group : Group) (groups : List Group) :
    request.addAll (group :: groups) = (request.add group).addAll groups := rfl

variable {request : Request} {group : Group} {groups : List Group} {rest : List String} {argument path : String}
  {refusal : Refusal}

/-- The last equation of `complete`: an argument that is none of the flags. -/
theorem complete_of_not_flag (request : Request) (rest : List String)
    (unknown : argument ∉ ["--disassemble", "--check", "--max-stack", "--help", "-h"]) :
    request.complete (argument :: rest) =
      if isOption argument then .error (.unknownOption argument)
      else request.file.elim (complete { request with file := some argument } rest) fun _ => .error .secondFile := by
  simp only [List.mem_cons, List.not_mem_nil, or_false, not_or] at unknown
  obtain ⟨hlist, hcheck, hlimit, hhelp, hshort⟩ := unknown
  cases hfile : request.file <;> simp [complete, hlimit, hhelp, hshort, hfile]

theorem complete_of_unknown (request : Request) (rest : List String) (option : argument.toList.head? = some '-')
    (unknown : argument ∉ ["--disassemble", "--check", "--max-stack", "--help", "-h"]) :
    request.complete (argument :: rest) = .error (.unknownOption argument) := by
  have hoption : isOption argument = true := by simpa [isOption] using option
  rw [complete_of_not_flag request rest unknown, if_pos hoption]

/-- What does not begin like an option is taken for a file, but only once. -/
theorem complete_of_plain (request : Request) (rest : List String) (plain : path.toList.head? ≠ some '-') :
    (request.file = none → request.complete (path :: rest) = complete { request with file := some path } rest) ∧
    (request.file ≠ none → request.complete (path :: rest) = .error .secondFile) := by
  have hoption : ¬isOption path = true := by simpa [isOption] using plain
  have hflags : path ∉ ["--disassemble", "--check", "--max-stack", "--help", "-h"] := by
    have hdashes : ∀ flag ∈ ["--disassemble", "--check", "--max-stack", "--help", "-h"],
        flag.toList.head? = some '-' := by decide
    exact fun hflag => plain (hdashes path hflag)
  rw [complete_of_not_flag request rest hflags, if_neg hoption]
  constructor
  · intro hfree
    rw [hfree, Option.elim_none]
  · intro htaken
    obtain ⟨file, hfile⟩ := Option.ne_none_iff_exists'.mp htaken
    rw [hfile, Option.elim_some]

/-- A group that names no second file is read. -/
theorem complete_group (h : request.file = none ∨ group.file? = none) :
    request.complete (group.arguments ++ rest) = (request.add group).complete rest := by
  cases group with
  | list | checkOnly => rfl
  | limit argument n reads positive =>
    have hlimit : limit? argument = some n := limit?_eq_some_iff.mpr ⟨reads, positive⟩
    show request.complete ("--max-stack" :: argument :: rest) = _
    rw [complete, hlimit]
    rfl
  | file path plain =>
    have hnone : request.file = none := h.resolve_right nofun
    exact (complete_of_plain request rest plain).1 hnone

theorem file_add (h : request.file = none ∨ group.file? = none) :
    (request.add group).file.toList = request.file.toList ++ group.file?.toList := by
  cases group with
  | list | checkOnly | limit => exact (List.append_nil _).symm
  | file path plain =>
    have hnone : request.file = none := h.resolve_right nofun
    rw [hnone]
    rfl

/-- By induction on the groups: each is read, as long as there is one file at most in all of them. -/
theorem complete_groups (rest : List String) (h : (request.file.toList ++ filesOf groups).length ≤ 1) :
    request.complete (argumentsOf groups ++ rest) = (request.addAll groups).complete rest ∧
      (request.addAll groups).file.toList = request.file.toList ++ filesOf groups := by
  induction groups generalizing request with
  | nil => exact ⟨rfl, (List.append_nil _).symm⟩
  | cons group groups ih =>
    have hone : request.file = none ∨ group.file? = none := by
      cases hfile : request.file with
      | none => exact .inl rfl
      | some file =>
        cases hfile' : group.file? with
        | none => exact .inr rfl
        | some file' => simp [filesOf_cons, hfile, hfile'] at h
    have hfiles : (request.add group).file.toList ++ filesOf groups =
        request.file.toList ++ filesOf (group :: groups) := by
      rw [file_add hone, filesOf_cons, List.append_assoc]
    obtain ⟨hcomplete, hadded⟩ := ih (hfiles ▸ h)
    refine ⟨?_, hadded.trans hfiles⟩
    rw [argumentsOf_cons, List.append_assoc, complete_group hone, hcomplete, addAll_cons]

/-- By induction on the groups: flags stay once they are there, and each bound takes the place of the one before. -/
theorem addAll_says (request : Request) (groups : List Group) :
    ((request.addAll groups).list = true ↔ request.list = true ∨ .list ∈ groups) ∧
    ((request.addAll groups).checkOnly = true ↔ request.checkOnly = true ∨ .checkOnly ∈ groups) ∧
    (request.addAll groups).limit = (groups.filterMap Group.bound?).getLastD request.limit := by
  induction groups generalizing request with
  | nil => simp
  | cons group groups ih =>
    obtain ⟨hlist, hcheckOnly, hlimit⟩ := ih (request.add group)
    rw [addAll_cons, hlist, hcheckOnly, hlimit]
    refine ⟨?_, ?_, ?_⟩
    · cases group <;> simp [add]
    · cases group <;> simp [add]
    · cases group with
      | list | checkOnly | file => rfl
      | limit => exact List.getLastD_cons.symm

/-! ### What is refused -/

theorem complete_of_stops (h : Stops request.file.toList rest refusal) : request.complete rest = .error refusal := by
  cases h with
  | help asks => rcases asks with rfl | rfl <;> rfl
  | @badLimit rest bad =>
    cases rest with
    | nil => rfl
    | cons argument rest =>
      have hlimit : limit? argument = none := by
        rw [Option.eq_none_iff_forall_ne_some]
        intro n hn
        obtain ⟨hcount, hpositive⟩ := limit?_eq_some_iff.mp hn
        exact Nat.ne_of_gt hpositive (bad argument rfl n hcount)
      rw [complete, hlimit]
  | unknownOption option unknown => exact complete_of_unknown request _ option unknown
  | secondFile plain taken =>
    refine (complete_of_plain request _ plain).2 fun hnone => taken ?_
    rw [hnone]
    rfl
  | noFile hnone =>
    have hfile : request.file = none := Option.toList_eq_nil_iff.mp hnone
    rw [complete, hfile]

end Request

/-- Arguments behind others that name `files`: groups, and then the end or what is refused. -/
def Parted (files arguments : List String) : Prop :=
  ∃ groups rest, arguments = argumentsOf groups ++ rest ∧ (files ++ filesOf groups).length ≤ 1 ∧
    (rest = [] ∧ (files ++ filesOf groups).length = 1 ∨ ∃ refusal, Stops (files ++ filesOf groups) rest refusal)

namespace Parted

variable {files rest : List String}

theorem cons (group : Group) (h : Parted (files ++ group.file?.toList) rest) :
    Parted files (group.arguments ++ rest) := by
  obtain ⟨groups, last, rfl, hend⟩ := h
  refine ⟨group :: groups, last, ?_, ?_⟩
  · rw [argumentsOf_cons, List.append_assoc]
  · rwa [filesOf_cons, ← List.append_assoc]

theorem cons_of_no_file (group : Group) (hgroup : group.file? = none) (h : Parted files rest) :
    Parted files (group.arguments ++ rest) := by
  refine cons group ?_
  rwa [hgroup, Option.toList_none, List.append_nil]

theorem of_stops {refusal : Refusal} (hfiles : files.length ≤ 1) (h : Stops files rest refusal) :
    Parted files rest := by
  refine ⟨[], rest, rfl, ?_, .inr ⟨refusal, ?_⟩⟩
  · rwa [filesOf_nil, List.append_nil]
  · rwa [filesOf_nil, List.append_nil]

end Parted

theorem Request.length_file (request : Request) : request.file.toList.length ≤ 1 := by
  cases request.file <;> simp

/-- All arguments are parted so, as they are read. -/
theorem Request.parted (request : Request) (arguments : List String) : Parted request.file.toList arguments := by
  induction request, arguments using Request.complete.induct with
  | case1 request file hfile =>
    rw [hfile]
    exact ⟨[], [], rfl, Nat.le_refl 1, .inl ⟨rfl, rfl⟩⟩
  | case2 request hfile => exact .of_stops request.length_file (.noFile (by rw [hfile]; rfl))
  | case3 request rest ih => exact .cons_of_no_file .list rfl ih
  | case4 request rest ih => exact .cons_of_no_file .checkOnly rfl ih
  | case5 request => exact .of_stops request.length_file (.badLimit nofun)
  | case6 request argument rest n hlimit ih =>
    obtain ⟨hreads, hpositive⟩ := limit?_eq_some_iff.mp hlimit
    exact .cons_of_no_file (.limit argument n hreads hpositive) rfl ih
  | case7 request argument rest hlimit =>
    refine .of_stops request.length_file (.badLimit ?_)
    rintro _ ⟨⟩ n hcount
    refine Nat.eq_zero_of_not_pos fun hpositive => ?_
    rw [limit?_eq_some_iff.mpr ⟨hcount, hpositive⟩] at hlimit
    cases hlimit
  | case8 request argument rest _ _ _ _ hhelp => exact .of_stops request.length_file (.help hhelp)
  | case9 request argument rest hlist hcheck hlast hlimit hhelp hoption =>
    have hstack : argument ≠ "--max-stack" := by
      intro heq
      cases rest with
      | nil => exact hlast heq rfl
      | cons value rest => exact hlimit value rest heq rfl
    refine .of_stops request.length_file (.unknownOption (by simpa [isOption] using hoption) ?_)
    simp only [List.mem_cons, List.not_mem_nil, or_false, not_or]
    exact ⟨hlist, hcheck, hstack, not_or.mp hhelp⟩
  | case10 request argument rest _ _ _ _ _ hplain file hfile =>
    refine .of_stops request.length_file (.secondFile (by simpa [isOption] using hplain) ?_)
    rw [hfile]
    exact nofun
  | case11 request argument rest _ _ _ _ _ hplain hfile ih =>
    have hplain : argument.toList.head? ≠ some '-' := by simpa [isOption] using hplain
    rw [hfile]
    exact .cons (.file argument hplain) ih

/-! ### Whole calls -/

theorem parse_of_splits {arguments : List String} {groups : List Group} (h : Splits arguments groups) :
    ∃ options, Options.parse arguments = .ok options ∧ Asked groups options := by
  obtain ⟨rfl, hone⟩ := h
  obtain ⟨file, hfile⟩ := List.length_eq_one_iff.mp hone
  have hfiles : (Request.start.file.toList ++ filesOf groups).length ≤ 1 := Nat.le_of_eq hone
  obtain ⟨hcomplete, hadded⟩ := Request.complete_groups [] hfiles
  obtain ⟨hlist, hcheckOnly, hlimit⟩ := Request.addAll_says .start groups
  have hadded : (Request.start.addAll groups).file = some file := by
    rw [hfile] at hadded
    exact Option.toList_eq_singleton_iff.mp hadded
  rw [List.append_nil, Request.complete, hadded] at hcomplete
  refine ⟨_, hcomplete, hfile, hlist.trans ?_, hcheckOnly.trans ?_, hlimit⟩
  · simp [Request.start]
  · simp [Request.start]

theorem parse_of_refused {arguments : List String} {refusal : Refusal} (h : Refused arguments refusal) :
    Options.parse arguments = .error refusal := by
  obtain ⟨groups, rest, rfl, hfiles, hstops⟩ := h
  have hfiles : (Request.start.file.toList ++ filesOf groups).length ≤ 1 := hfiles
  obtain ⟨hcomplete, hadded⟩ := Request.complete_groups rest hfiles
  have hadded : (Request.start.addAll groups).file.toList = filesOf groups := hadded
  rw [Options.parse, hcomplete, Request.complete_of_stops (hadded ▸ hstops)]

/-- Arguments split into groups, or there is something to refuse. -/
theorem splits_or_refused (arguments : List String) :
    (∃ groups, Splits arguments groups) ∨ ∃ refusal, Refused arguments refusal := by
  obtain ⟨groups, rest, harguments, hfiles, ⟨rfl, hone⟩ | ⟨refusal, hstops⟩⟩ := Request.start.parted arguments
  · exact .inl ⟨groups, by rw [harguments, List.append_nil], hone⟩
  · exact .inr ⟨refusal, groups, rest, harguments, hfiles, hstops⟩

theorem parse_eq_error_iff {arguments : List String} {refusal : Refusal} :
    Options.parse arguments = .error refusal ↔ Refused arguments refusal := by
  refine ⟨fun h => ?_, parse_of_refused⟩
  rcases splits_or_refused arguments with ⟨groups, hsplits⟩ | ⟨refusal', hrefused⟩
  · obtain ⟨options, hok, -⟩ := parse_of_splits hsplits
    rw [h] at hok
    cases hok
  · have herror := parse_of_refused hrefused
    rw [h] at herror
    cases herror
    exact hrefused

theorem refused_help_iff {arguments : List String} : Refused arguments .help ↔ AsksForHelp arguments := by
  constructor
  · rintro ⟨groups, _, rfl, hfiles, ⟨asks⟩⟩
    exact ⟨groups, _, _, rfl, hfiles, asks⟩
  · rintro ⟨groups, argument, rest, rfl, hfiles, asks⟩
    exact ⟨groups, argument :: rest, rfl, hfiles, .help asks⟩

theorem Refusal.exitCode_eq (refusal : Refusal) :
    (refusal.exitCode = 0 ↔ refusal = .help) ∧ (refusal.exitCode = 64 ↔ refusal ≠ .help) := by
  cases refusal <;> simp [exitCode]

/-- Arguments are followed just if they are made of groups of which one names a file. The options then say what the
groups say, and the same groups in any other order that leaves the bound as it is give the same options. All other
arguments end the call at once, whatever files there are and whatever the input is, with nothing on the standard output.
The exit code tells what comes first, a call for help or something wrong. -/
theorem arguments_exact (arguments : List String) :
    ((∃ options, Options.parse arguments = .ok options) ↔ ∃ groups, Splits arguments groups) ∧
    (∀ groups options, Splits arguments groups → Options.parse arguments = .ok options → Asked groups options) ∧
    (∀ groups groups', Splits arguments groups → groups.Perm groups' → boundOf groups' = boundOf groups →
      Options.parse (argumentsOf groups') = Options.parse arguments) ∧
    ((¬∃ groups, Splits arguments groups) →
      ∃ ended, (∀ files stdin fuel, main? arguments files stdin fuel = some ended) ∧
        ended.stdout = ByteArray.empty ∧ (ended.exitCode = 0 ↔ AsksForHelp arguments) ∧
        (ended.exitCode = 64 ↔ ¬AsksForHelp arguments)) := by
  refine ⟨⟨?_, ?_⟩, ?_, ?_, ?_⟩
  · rintro ⟨options, hok⟩
    refine (splits_or_refused arguments).resolve_right ?_
    rintro ⟨refusal, hrefused⟩
    rw [parse_of_refused hrefused] at hok
    cases hok
  · rintro ⟨groups, hsplits⟩
    obtain ⟨options, hok, -⟩ := parse_of_splits hsplits
    exact ⟨options, hok⟩
  · intro groups options hsplits hok
    obtain ⟨options', hok', hasked⟩ := parse_of_splits hsplits
    rw [hok] at hok'
    cases hok'
    exact hasked
  · intro groups groups' hsplits hperm hbound
    obtain ⟨options, hok, hasked⟩ := parse_of_splits hsplits
    have hasked' := hasked.perm hperm hbound
    have hsplits' : Splits (argumentsOf groups') groups' := ⟨rfl, by rw [hasked'.file]; rfl⟩
    obtain ⟨options', hok', hasked''⟩ := parse_of_splits hsplits'
    rw [hok, hok', hasked'.unique hasked'']
  · intro hnone
    obtain ⟨refusal, hrefused⟩ := (splits_or_refused arguments).resolve_left hnone
    have herror := parse_of_refused hrefused
    have hhelp : refusal = .help ↔ AsksForHelp arguments := by
      rw [← refused_help_iff, ← parse_eq_error_iff, herror, Except.error.injEq]
    obtain ⟨hzero, hmisuse⟩ := refusal.exitCode_eq
    refine ⟨⟨refusal.exitCode, ByteArray.empty, refusal.message⟩, fun files stdin fuel => ?_, rfl,
      hzero.trans hhelp, hmisuse.trans (not_congr hhelp)⟩
    rw [main?, herror]

/-- Two bounds among the groups, the second with a sign. -/
def twiceBounded : List Group :=
  [.limit "3" 3 (by decide) (by decide), .file "p.sbc" (by decide), .limit "+7" 7 (by decide) (by decide), .checkOnly]

/-- The same groups with the flag and the file before both bounds. -/
def twiceBoundedLate : List Group :=
  [.checkOnly, .file "p.sbc" (by decide), .limit "3" 3 (by decide) (by decide), .limit "+7" 7 (by decide) (by decide)]

/-- The last bound counts in both orders. Help behind a file is given, but help in place of a bound is a bad bound. -/
theorem arguments_exact_shuffled :
    Asked twiceBounded ⟨"p.sbc", false, true, 7⟩ ∧
    Options.parse ["--check", "p.sbc", "--max-stack", "3", "--max-stack", "+7"] = .ok ⟨"p.sbc", false, true, 7⟩ ∧
    (∃ ended, (∀ files stdin fuel, main? ["p.sbc", "-h", "q.sbc"] files stdin fuel = some ended) ∧
      ended.exitCode = 0) ∧
    ¬AsksForHelp ["--max-stack", "--help"] := by
  have hsplits : Splits ["--max-stack", "3", "p.sbc", "--max-stack", "+7", "--check"] twiceBounded := ⟨rfl, rfl⟩
  have hok : Options.parse ["--max-stack", "3", "p.sbc", "--max-stack", "+7", "--check"] =
      .ok ⟨"p.sbc", false, true, 7⟩ := rfl
  have hrotated : (twiceBounded.take 3 ++ [Group.checkOnly]).Perm ([Group.checkOnly] ++ twiceBounded.take 3) :=
    List.perm_append_comm
  have hperm : twiceBounded.Perm twiceBoundedLate := hrotated.trans (.cons _ (.swap _ _ _))
  obtain ⟨-, hasked, hreordered, -⟩ := arguments_exact ["--max-stack", "3", "p.sbc", "--max-stack", "+7", "--check"]
  obtain ⟨hiff, -, -, hrefused⟩ := arguments_exact ["p.sbc", "-h", "q.sbc"]
  obtain ⟨hiff', -, -, hrefused'⟩ := arguments_exact ["--max-stack", "--help"]
  refine ⟨hasked _ _ hsplits hok, (hreordered _ _ hsplits hperm rfl).trans hok, ?_, ?_⟩
  · have herror : Options.parse ["p.sbc", "-h", "q.sbc"] = .error .help := rfl
    obtain ⟨ended, hended, -, hzero, -⟩ := hrefused fun hsplits => by
      obtain ⟨options, hok⟩ := hiff.mpr hsplits
      rw [herror] at hok
      cases hok
    exact ⟨ended, hended, hzero.mpr ⟨[.file "p.sbc" (by decide)], "-h", ["q.sbc"], rfl, Nat.le_refl 1, .inr rfl⟩⟩
  · have herror : Options.parse ["--max-stack", "--help"] = .error .badLimit := rfl
    obtain ⟨ended, hended, -, -, hmisuse⟩ := hrefused' fun hsplits => by
      obtain ⟨options, hok⟩ := hiff'.mpr hsplits
      rw [herror] at hok
      cases hok
    have hmain : main? ["--max-stack", "--help"] (fun _ => .error notFound) [] 0 =
        some ⟨64, ByteArray.empty, Refusal.badLimit.message⟩ := rfl
    rw [hended] at hmain
    cases hmain
    exact hmisuse.mp rfl

end StackMachine.CommandLine
