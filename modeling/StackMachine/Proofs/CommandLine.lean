import StackMachine.CommandLine.Session
import StackMachine.Proofs.Assembled
import StackMachine.Proofs.Truncation

/-! Calls of the command line.

A call either only checks its program or runs it, and does the same until the two part: it loads the file and writes the
listing if that is asked for. A check finds everything that is wrong with the labels, so a run that follows a successful
one can fail only by what it executes, and whether it ends or not, its output begins with that of the check
(`CommandLine.check_predicts_run`). A run is the one that the library makes of the same text, but for the title of the
listing (`CommandLine.run_agrees_with_library`). -/

namespace StackMachine

/-! ### What is written before the run -/

/-- A sink that takes everything and has taken some bytes. -/
def Sink.having (bytes : ByteArray) : Sink :=
  ⟨bytes, none, none, 0⟩

/-- The first line of a listing. -/
def titleLine (title : String) : String :=
  "== " ++ title ++ " ==\n"

namespace Code

/-- What is written before code is executed. -/
def preface (code : Code) (list : Bool) (title : String) : ByteArray :=
  if list then (code.listing title ++ "---\n").toUTF8 else ByteArray.empty

theorem writeListing_unbounded (code : Code) (list : Bool) (title : String) :
    (if list then code.writeListing title .unbounded else .ok () .unbounded) =
      .ok () (.having (code.preface list title)) := by
  cases list with
  | false => rfl
  | true =>
    simp only [if_true, writeListing_eq, preface]
    rw [← ByteArray.empty_append (b := (code.listing title ++ "---\n").toUTF8)]
    rfl

theorem run?_unbounded (code : Code) (fuel : Nat) (input : Input) (options : RunOptions) :
    code.run? fuel input .unbounded options =
      code.execute? fuel input (.having (code.preface options.list defaultTitle)) options.limit := by
  have hlisted := code.writeListing_unbounded options.list defaultTitle
  cases hlist : options.list with
  | false =>
    rw [run?, if_neg (by simp [hlist])]
    rfl
  | true =>
    rw [hlist, if_pos rfl] at hlisted
    rw [run?, if_pos hlist, hlisted]

/-- Two listings of the same code differ in their first lines only. -/
theorem preface_listed (code : Code) :
    ∃ rest, ∀ title, code.preface true title = (titleLine title).toUTF8 ++ rest := by
  refine ⟨(String.join code.rows ++ "---\n").toUTF8, fun title => ?_⟩
  have htext : code.listing title ++ "---\n" = titleLine title ++ (String.join code.rows ++ "---\n") := by
    simp only [listing, titleLine, String.append_assoc]
  rw [preface, if_pos rfl, htext, String.toUTF8_eq_toByteArray, String.toByteArray_append]
  rfl

end Code

/-! ### Checks and runs -/

/-- Assembled code whose labels are in order does not fault for want of an operand or a label. -/
theorem Code.not_ofLinking_of_run? {source : String} {code : Code} {image : Image} {m : Machine} {fuel : Nat}
    {halt : Halt} {fault : Fault} (h : assemble source = .ok code) (hlink : Image.link code.instructions = .ok image)
    (hrun : m.run? fuel code.instructions = some halt) (hfault : halt.outcome = .error fault) : ¬fault.OfLinking := by
  rcases Machine.fault_cases hrun hfault with hbad | ⟨e, rfl⟩ | ⟨j, m', hfaults⟩
  · rw [hlink] at hbad
    cases hbad
  · exact id
  · obtain ⟨i, n, -, hi, target, hresolves, hraises⟩ := hfaults.raises
    rcases hraises with hdecode | ⟨operation, -, hraises⟩
    · have hwell := wellFormed_of_assemble h i (List.mem_of_getElem? hi)
      obtain ⟨kind, literal, -, rfl⟩ := hwell.decode_eq_error hresolves.1 hdecode
      exact id
    · cases hraises <;> exact id

/-- The failures that only executing code brings about: faults, except for those about labels and missing operands. -/
def Failure.OfExecution : Failure → Prop
  | .fault cause => ¬cause.OfLinking
  | _ => False

namespace CommandLine

variable {options : Options} {files : Files} {code : Code} {failure : Failure} {fault : Fault} {image : Image}

theorem assemble_of_load {file : String} (h : loadCode files file = .ok code) :
    ∃ source, Code.assemble source = .ok code := by
  obtain ⟨source, -, h⟩ := Except.bind_eq_ok.mp h
  exact ⟨source, Except.mapError_eq_ok.mp h⟩

theorem main?_of_parse {arguments : List String} (h : Options.parse arguments = .ok options) (files : Files)
    (stdin : Input) (fuel : Nat) :
    main? arguments files stdin fuel =
      (session? options files stdin fuel).map fun (outcome, sink) => report options.file outcome sink := by
  rw [main?, h]

theorem session?_of_load_error (options : Options) (h : loadCode files options.file = .error failure) (stdin : Input)
    (fuel : Nat) : session? options files stdin fuel = some (.error failure, .unbounded) := by
  rw [session?, prepare, h]

section

variable (options : Options) (h : loadCode files options.file = .ok code) (stdin : Input) (fuel : Nat)

include h

theorem prepare_of_load :
    prepare options files .unbounded =
      if options.checkOnly then
        .over ((checkLabels code.instructions).mapError .fault) (.having (code.preface options.list options.file))
      else .ready code (.having (code.preface options.list options.file)) := by
  rw [prepare, h]
  dsimp only
  rw [code.writeListing_unbounded options.list options.file]

theorem session?_of_check (hcheck : options.checkOnly = true) :
    session? options files stdin fuel =
      some ((checkLabels code.instructions).mapError Failure.fault,
        .having (code.preface options.list options.file)) := by
  rw [session?, prepare_of_load options h, if_pos hcheck]

theorem session?_of_run (hrun : options.checkOnly = false) :
    session? options files stdin fuel =
      (code.execute? fuel stdin (.having (code.preface options.list options.file)) options.limit).map fun finished =>
        (finished.outcome, finished.sink) := by
  rw [session?, prepare_of_load options h, if_neg (by simp [hrun])]

/-- Labels that are not in order end a run before it begins. -/
theorem session?_of_link_error (hrun : options.checkOnly = false)
    (hlink : Image.link code.instructions = .error fault) :
    session? options files stdin fuel =
      some (.error (.fault fault), .having (code.preface options.list options.file)) := by
  rw [session?_of_run options h stdin fuel hrun, Code.execute?, Machine.run?, hlink]
  rfl

theorem session?_of_link {outcome : Except Failure Unit} {sink : Sink} (hrun : options.checkOnly = false)
    (hlink : Image.link code.instructions = .ok image)
    (hsession : session? options files stdin fuel = some (outcome, sink)) :
    (Sink.having (code.preface options.list options.file)).Continues sink ∧
      ∀ failure, outcome = .error failure → failure.OfExecution := by
  rw [session?_of_run options h stdin fuel hrun] at hsession
  obtain ⟨finished, hfinished, hsession⟩ := Option.map_eq_some_iff.mp hsession
  cases hsession
  refine ⟨Code.continues_execute? hfinished, fun failure hfailure => ?_⟩
  obtain ⟨halt, hhalt, rfl⟩ := Option.map_eq_some_iff.mp hfinished
  obtain ⟨source, hsource⟩ := assemble_of_load h
  cases houtcome : halt.outcome with
  | ok => simp [houtcome, Except.mapError] at hfailure
  | error fault =>
    obtain rfl : Failure.fault fault = failure := by simpa [houtcome, Except.mapError] using hfailure
    exact Code.not_ofLinking_of_run? hsource hlink hhalt houtcome

end

/-- After `n` steps of the program, the machine of a call is `m`. -/
def Reaches (options : Options) (files : Files) (stdin : Input) (n : Nat) (m : Machine) : Prop :=
  ∃ code sink j, prepare options files .unbounded = .ready code sink ∧
    (Machine.new stdin sink options.limit).Reaches code.instructions n j m

/-- A call that does not end within its fuel makes that many steps. -/
theorem exists_reaches {stdin : Input} {fuel : Nat} (h : session? options files stdin fuel = none) :
    ∃ m, Reaches options files stdin fuel m := by
  unfold session? at h
  rcases hprepare : prepare options files .unbounded with ⟨outcome, sink⟩ | ⟨code, sink⟩
  · rw [hprepare] at h
    cases h
  · rw [hprepare] at h
    have hrun : code.execute? fuel stdin sink options.limit = none := Option.map_eq_none_iff.mp h
    rw [Code.execute?, Option.map_eq_none_iff, Machine.run?_eq_none_iff] at hrun
    obtain ⟨j, m, hreaches⟩ := hrun
    exact ⟨m, code, sink, j, hprepare, hreaches⟩

theorem Reaches.continues {stdin : Input} {n : Nat} {m : Machine} (h : Reaches options files stdin n m)
    (hload : loadCode files options.file = .ok code) (hrun : options.checkOnly = false) :
    (Sink.having (code.preface options.list options.file)).Continues m.world.sink := by
  obtain ⟨_, _, j, hprepare, hreaches⟩ := h
  rw [prepare_of_load options hload, if_neg (by simp [hrun])] at hprepare
  cases hprepare
  exact hreaches.continues

/-- What it says about the run that a check with the same options ended so. -/
structure Predicts (options : Options) (files : Files) (stdin : Input) (outcome : Except Failure Unit) (sink : Sink) :
    Prop where
  failed : ∀ failure, outcome = .error failure → ∀ fuel,
    session? { options with checkOnly := false } files stdin fuel = some (.error failure, sink)
  succeeded : outcome = .ok () → ∀ fuel outcome' sink',
    session? { options with checkOnly := false } files stdin fuel = some (outcome', sink') →
      sink.Continues sink' ∧ ∀ failure, outcome' = .error failure → failure.OfExecution
  /-- The output of the check has been written at every step of the run, whether the run will end or not. -/
  running : outcome = .ok () → ∀ n m, Reaches { options with checkOnly := false } files stdin n m →
    sink.Continues m.world.sink
  /-- A run that never ends has such steps without end. -/
  unended : ∀ fuel, session? { options with checkOnly := false } files stdin fuel = none →
    ∃ m, Reaches { options with checkOnly := false } files stdin fuel m

theorem exists_predicts (options : Options) (files : Files) (stdin : Input) :
    ∃ outcome sink, (∀ fuel, session? { options with checkOnly := true } files stdin fuel = some (outcome, sink)) ∧
      Predicts options files stdin outcome sink := by
  cases hload : loadCode files options.file with
  | error failure =>
    have hcheck := session?_of_load_error { options with checkOnly := true } hload stdin
    refine ⟨.error failure, .unbounded, hcheck, ?_, nofun, nofun, fun _ => exists_reaches⟩
    rintro _ ⟨⟩
    exact session?_of_load_error { options with checkOnly := false } hload stdin
  | ok code =>
    refine ⟨_, _, fun fuel => session?_of_check { options with checkOnly := true } hload stdin fuel rfl, ?_⟩
    rw [checkLabels_eq_link]
    cases hlink : Image.link code.instructions with
    | error fault =>
      refine ⟨?_, nofun, nofun, fun _ => exists_reaches⟩
      rintro _ ⟨⟩ fuel
      exact session?_of_link_error { options with checkOnly := false } hload stdin fuel rfl hlink
    | ok image =>
      refine ⟨fun _ => nofun, fun _ fuel _ _ => ?_, fun _ n m hreaches => ?_, fun _ => exists_reaches⟩
      · exact session?_of_link { options with checkOnly := false } hload stdin fuel rfl hlink
      · exact hreaches.continues hload rfl

/-- A check tells how the run would begin. If the check fails, the run fails in the same way after the same output,
whatever the input, and the two calls leave the same report. If it succeeds, the output of the run begins with that of
the check, even if the run never ends, and the run can only fail by what it executes. -/
theorem check_predicts_run (options : Options) (files : Files) (stdin : Input) :
    ∃ outcome sink,
      (∀ fuel, session? { options with checkOnly := true } files stdin fuel = some (outcome, sink)) ∧
      Predicts options files stdin outcome sink ∧
      ∀ checking running, Options.parse checking = .ok { options with checkOnly := true } →
        Options.parse running = .ok { options with checkOnly := false } → ∀ fuel,
          main? checking files stdin fuel = some (report options.file outcome sink) ∧
          ∀ failure, outcome = .error failure →
            main? running files stdin fuel = some (report options.file outcome sink) := by
  obtain ⟨outcome, sink, hcheck, hpredicts⟩ := exists_predicts options files stdin
  refine ⟨outcome, sink, hcheck, hpredicts, fun checking running hchecking hrunning fuel => ⟨?_, ?_⟩⟩
  · rw [main?_of_parse hchecking, hcheck fuel]
    rfl
  · rintro failure rfl
    rw [main?_of_parse hrunning, hpredicts.failed failure rfl fuel]
    rfl

/-- The files of a directory whose only program jumps to a label that is not there. -/
def lostFiles : Files := fun _ =>
  .ok "jmp away\n".toUTF8

/-- The check of the program fails, and so does its run, before it begins. -/
theorem check_predicts_run_lost : ∃ ended : Report, ended.exitCode = 70 ∧
    ended.stderr = "lost: Runtime error: label 'away' not found\n" ∧ ∀ fuel,
      main? ["--check", "lost"] lostFiles [] fuel = some ended ∧ main? ["lost"] lostFiles [] fuel = some ended := by
  obtain ⟨outcome, sink, hcheck, -, hreport⟩ := check_predicts_run ⟨"lost", false, false, defaultLimit⟩ lostFiles []
  have hfailed : session? ⟨"lost", false, true, defaultLimit⟩ lostFiles [] 0 =
      some (.error (.fault (.undefinedLabel "away")), .unbounded) := rfl
  obtain ⟨rfl, rfl⟩ := Prod.mk.inj (Option.some.inj ((hcheck 0).symm.trans hfailed))
  refine ⟨report "lost" (.error (.fault (.undefinedLabel "away"))) .unbounded, rfl, by decide, fun fuel => ?_⟩
  obtain ⟨hchecking, hrunning⟩ := hreport ["--check", "lost"] ["lost"] rfl rfl fuel
  exact ⟨hchecking, hrunning _ rfl⟩

end CommandLine

/-! ### The run of the library -/

/-- How much of a text is written does not depend on what was written before. -/
theorem Sink.write_cases (text : String) (room : Option Nat) (flushError : Option IoError) (flushes : Nat) :
    (∃ bytes room', ∀ written, write text ⟨written, room, flushError, flushes⟩ =
      .ok () ⟨written ++ bytes, room', flushError, flushes⟩) ∨
    ∃ bytes room', ∀ written, write text ⟨written, room, flushError, flushes⟩ =
      .error .sinkFull ⟨written ++ bytes, room', flushError, flushes⟩ := by
  cases room with
  | none => exact .inl ⟨text.toUTF8, none, fun _ => rfl⟩
  | some room =>
    rcases Nat.lt_or_ge room text.toUTF8.size with hfull | hfits
    · exact .inr ⟨_, _, fun _ => write_of_full hfull⟩
    · exact .inl ⟨_, _, fun _ => write_of_fits hfits⟩

/-- Worlds that differ in how what was written begins. -/
def WorldComparison.behind (first second : ByteArray) : WorldComparison where
  alike w w' := ∃ more, w.sink.written = first ++ more ∧
    w' = { w with sink := { w.sink with written := second ++ more } }
  cut _ _ _ := False
  store_eq := by
    rintro w _ ⟨more, -, rfl⟩
    rfl
  later h _ := h

theorem WorldComparison.lawful_behind (first second : ByteArray) : (behind first second).Lawful where
  save := by
    rintro name v w _ ⟨more, hmore, rfl⟩
    exact .ok ⟨more, hmore, rfl⟩
  print := by
    rintro values ⟨store, input, ⟨_, room, flushError, flushes⟩⟩ _ ⟨more, rfl, rfl⟩
    rw [World.print, World.write, World.write]
    rcases Sink.write_cases (String.join (values.map Value.text) ++ "\n") room flushError flushes with
      ⟨bytes, room', hwrite⟩ | ⟨bytes, room', hwrite⟩
    · rw [hwrite, hwrite]
      exact .ok ⟨more ++ bytes, ByteArray.append_assoc, by rw [ByteArray.append_assoc]⟩
    · rw [hwrite, hwrite]
      exact .error ⟨more ++ bytes, ByteArray.append_assoc, by rw [ByteArray.append_assoc]⟩
  read := by
    rintro kind w _ ⟨more, hmore, rfl⟩
    exact World.matches_read kind fun input => ⟨more, hmore, rfl⟩
  finish := by
    rintro ⟨store, input, ⟨written, room, flushError, flushes⟩⟩ _ ⟨more, rfl, rfl⟩
    cases flushError with
    | none => exact .ok ⟨more, rfl, rfl⟩
    | some e => exact .error ⟨more, rfl, rfl⟩

theorem WorldComparison.alike_behind (first second : ByteArray) (input : Input) (limit : Nat) :
    ((behind first second).machines Eq).alike (Machine.new input (.having first) limit).reset
      (Machine.new input (.having second) limit).reset :=
  ⟨rfl, rfl, ByteArray.empty, ByteArray.append_empty.symm, by rw [ByteArray.append_empty]; rfl⟩

namespace Code

variable {code : Code} {fuel limit : Nat} {input : Input} {first : ByteArray}

theorem execute?_eq_none (second : ByteArray) (h : code.execute? fuel input (.having first) limit = none) :
    code.execute? fuel input (.having second) limit = none := by
  rw [execute?, Option.map_eq_none_iff] at h ⊢
  have halike := WorldComparison.alike_behind first second input limit
  exact (WorldComparison.lawful_behind first second).machines_eq.run?_eq_none halike h

/-- What was written before a run is of no account for it. -/
theorem execute?_behind (second : ByteArray) {finished : Finished}
    (h : code.execute? fuel input (.having first) limit = some finished) :
    ∃ more finished', finished.sink.written = first ++ more ∧
      code.execute? fuel input (.having second) limit = some finished' ∧ finished'.outcome = finished.outcome ∧
      finished'.sink.written = second ++ more := by
  obtain ⟨halt, hrun, rfl⟩ := Option.map_eq_some_iff.mp h
  have halike := WorldComparison.alike_behind first second input limit
  rcases (WorldComparison.lawful_behind first second).machines_eq.run?_cases halike hrun with
    ⟨halt', hrun', houtcome, -, -, more, hmore, hworld⟩ | ⟨fault, left, m', -, hcut, -⟩
  · refine ⟨more, _, hmore, Option.map_eq_some_iff.mpr ⟨halt', hrun', rfl⟩, ?_, ?_⟩
    · rw [houtcome]
    · rw [hworld]
  · cases hcut

end Code

namespace CommandLine

/-- The output of a call beside that of the library: the same, or the same but for the title line of the listing. -/
def SameButTitle (listed : Bool) (file : String) (stdout output : ByteArray) : Prop :=
  if listed then
    ∃ more, output = (titleLine defaultTitle).toUTF8 ++ more ∧ stdout = (titleLine file).toUTF8 ++ more
  else stdout = output

/-- The report of a call beside what the library leaves of the same text. -/
structure Mirrors (listed : Bool) (file : String) (ended : Report) (finished : Finished) : Prop where
  stdout : SameButTitle listed file ended.stdout finished.sink.written
  ok : ended.exitCode = 0 ∧ ended.stderr = "" ↔ finished.outcome = .ok ()
  error : ∀ failure, finished.outcome = .error failure →
    ((∃ e, failure = .assembly e) ∧ ended.exitCode = 65 ∨ (∃ fault, failure = .fault fault) ∧ ended.exitCode = 70) ∧
      ended.stderr = file ++ ": " ++ failure.message ++ "\n"

theorem mirrors_report {listed : Bool} {file : String} {sink : Sink} (finished : Finished)
    (hstdout : SameButTitle listed file sink.written finished.sink.written)
    (hkind : ∀ failure, finished.outcome = .error failure →
      (∃ e, failure = .assembly e) ∨ ∃ fault, failure = .fault fault) :
    Mirrors listed file (report file finished.outcome sink) finished := by
  obtain ⟨outcome, sink', input⟩ := finished
  cases outcome with
  | ok =>
    refine ⟨hstdout, ⟨fun _ => rfl, fun _ => ⟨rfl, rfl⟩⟩, ?_⟩
    rintro _ ⟨⟩
  | error failure =>
    have hcode : exitCode failure ≠ 0 := by cases failure <;> simp [exitCode]
    refine ⟨hstdout, ⟨fun h => absurd h.1 hcode, nofun⟩, ?_⟩
    rintro _ ⟨⟩
    refine ⟨?_, rfl⟩
    rcases hkind failure rfl with ⟨e, rfl⟩ | ⟨fault, rfl⟩
    · exact .inl ⟨⟨e, rfl⟩, rfl⟩
    · exact .inr ⟨⟨fault, rfl⟩, rfl⟩

theorem loadCode_of_text {files : Files} {file text : String} (h : files file = .ok text.toUTF8) :
    loadCode files file = (Code.assemble text).mapError Failure.assembly := by
  have htext : String.fromUTF8? text.toUTF8 = some text := by
    rw [String.fromUTF8?, String.toUTF8_eq_toByteArray, dif_pos text.isValidUTF8]
    rfl
  have hread : readText files file = .ok text := by
    simp only [readText, h, htext]
  exact Except.bind_ok hread

/-- The run of assembled code by a call, beside the one by the library. -/
theorem mirrors_execute? {code : Code} {options : Options} {stdin : Input} {fuel : Nat} {finished : Finished}
    (h : code.run? fuel stdin .unbounded ⟨options.list, options.limit⟩ = some finished) :
    ∃ finished', code.execute? fuel stdin (.having (code.preface options.list options.file)) options.limit =
        some finished' ∧
      Mirrors options.list options.file (report options.file finished'.outcome finished'.sink) finished := by
  rw [Code.run?_unbounded] at h
  obtain ⟨more, finished', hwritten, hrun, houtcome, hwritten'⟩ :=
    Code.execute?_behind (code.preface options.list options.file) h
  refine ⟨finished', hrun, ?_⟩
  rw [houtcome]
  refine mirrors_report finished ?_ fun failure hfailure => .inr ?_
  · cases hlist : options.list with
    | false =>
      rw [hlist] at hwritten hwritten'
      exact hwritten'.trans hwritten.symm
    | true =>
      obtain ⟨rest, hrest⟩ := code.preface_listed
      rw [hlist, hrest, ByteArray.append_assoc] at hwritten hwritten'
      exact ⟨rest ++ more, hwritten, hwritten'⟩
  · obtain ⟨halt, -, rfl⟩ := Option.map_eq_some_iff.mp h
    cases hhalt : halt.outcome with
    | ok => simp [hhalt, Except.mapError] at hfailure
    | error fault => exact ⟨fault, by simpa [hhalt, Except.mapError, eq_comm] using hfailure⟩

/-- A call that runs a file does what the library does with its text. It ends if the library does, with the same output
but for the title of the listing. The exit code and the standard error tell how the library ended. -/
theorem run_agrees_with_library {arguments : List String} {options : Options}
    (hparse : Options.parse arguments = .ok options) (hrun : options.checkOnly = false) {files : Files} {text : String}
    (hfile : files options.file = .ok text.toUTF8) (stdin : Input) (fuel : Nat) :
    (main? arguments files stdin fuel = none ↔
      runText? text fuel stdin .unbounded ⟨options.list, options.limit⟩ = none) ∧
    ∀ finished, runText? text fuel stdin .unbounded ⟨options.list, options.limit⟩ = some finished →
      ∃ ended, main? arguments files stdin fuel = some ended ∧
        Mirrors (options.list && (Code.assemble text).isOk) options.file ended finished := by
  have hload := loadCode_of_text hfile
  rw [main?_of_parse hparse]
  cases hassemble : Code.assemble text with
  | error e =>
    rw [hassemble] at hload
    rw [session?_of_load_error options hload, runText?, hassemble]
    refine ⟨⟨fun h => (by cases h), fun h => (by cases h)⟩, ?_⟩
    rintro _ ⟨⟩
    refine ⟨report options.file (.error (.assembly e)) .unbounded, rfl, ?_⟩
    rw [Except.isOk, Except.toBool, Bool.and_false]
    refine mirrors_report ⟨.error (.assembly e), .unbounded, stdin⟩ ?_ ?_
    · rfl
    · rintro _ ⟨⟩
      exact .inl ⟨e, rfl⟩
  | ok code =>
    rw [hassemble] at hload
    rw [session?_of_run options hload stdin fuel hrun, runText?, hassemble, Except.isOk, Except.toBool, Bool.and_true]
    refine ⟨?_, fun finished hfinished => ?_⟩
    · rw [Option.map_eq_none_iff, Option.map_eq_none_iff]
      dsimp only
      rw [Code.run?_unbounded]
      exact ⟨Code.execute?_eq_none _, Code.execute?_eq_none _⟩
    · obtain ⟨finished', hfinished', hmirrors⟩ := mirrors_execute? hfinished
      rw [hfinished']
      exact ⟨_, rfl, hmirrors⟩

/-- A text that prints a line and then divides by zero. -/
def dividingText : String :=
  "push i 1\nprint 1\npush i 1\npush i 0\ndiv i\n"

def dividingFiles : Files := fun _ =>
  .ok dividingText.toUTF8

/-- The listing has the name of the file in its title, and the fault of the library is reported. -/
theorem run_agrees_with_library_dividing :
    ∃ ended, main? ["--disassemble", "--max-stack", "2", "p.sbc"] dividingFiles [] 9 = some ended ∧
      ended.exitCode = 70 ∧ ended.stderr = "p.sbc: Runtime error: division by zero\n" ∧
      ∃ more, ended.stdout = "== p.sbc ==\n".toUTF8 ++ more := by
  have hparse : Options.parse ["--disassemble", "--max-stack", "2", "p.sbc"] = .ok ⟨"p.sbc", true, false, 2⟩ := rfl
  obtain ⟨finished, hfinished, houtcome⟩ : ∃ finished, runText? dividingText 9 [] .unbounded ⟨true, 2⟩ = some finished ∧
      finished.outcome = .error (.fault .divisionByZero) := ⟨_, rfl, rfl⟩
  have hfile : dividingFiles "p.sbc" = .ok dividingText.toUTF8 := rfl
  obtain ⟨ended, hended, hmirrors⟩ := (run_agrees_with_library hparse rfl hfile [] 9).2 finished hfinished
  obtain ⟨⟨⟨e, hassembly⟩, -⟩ | ⟨-, hcode⟩, hstderr⟩ := hmirrors.error _ houtcome
  · cases hassembly
  · have hlisted : (true && (Code.assemble dividingText).isOk) = true := rfl
    have hstdout := hmirrors.stdout
    rw [hlisted] at hstdout
    obtain ⟨more, -, hmore⟩ := hstdout
    exact ⟨ended, hended, hcode, hstderr, more, hmore⟩

end CommandLine

end StackMachine
