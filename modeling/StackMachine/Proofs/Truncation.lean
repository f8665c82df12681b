import StackMachine.Proofs.Comparison
import StackMachine.Toolchain

/-! Sinks that run full.

A run on a sink with room for some bytes is the run on a sink that takes everything, ended by the first write that does
not fit. What fits of that write is kept, and nothing is written after it. Main statement: `sink_truncates`. -/

namespace StackMachine

/-! ### Sinks side by side -/

theorem extract_of_size_le {bytes : ByteArray} {n : Nat} (h : bytes.size ≤ n) : bytes.extract 0 n = bytes := by
  rw [ByteArray.ext_iff, ByteArray.data_extract]
  exact Array.extract_eq_self_of_le h

/-- The first bytes of two texts, as many as are in the first one and some more. -/
theorem extract_append_add (first second : ByteArray) (n : Nat) :
    (first ++ second).extract 0 (first.size + n) = first ++ second.extract 0 n := by
  rw [ByteArray.extract_append, extract_of_size_le (Nat.le_add_right _ _), Nat.zero_sub, Nat.add_sub_cancel_left]

theorem extract_append_of_le {first : ByteArray} (second : ByteArray) {n : Nat} (h : n ≤ first.size) :
    (first ++ second).extract 0 n = first.extract 0 n := by
  rw [ByteArray.extract_append, Nat.zero_sub, Nat.sub_eq_zero_of_le h,
    ByteArray.extract_eq_empty_iff.mpr (Nat.min_le_left 0 _), ByteArray.append_empty]

namespace Sink

variable {n : Nat} {s s' t' : Sink}

/-- A sink with room for some bytes in all. -/
def bounded (n : Nat) : Sink :=
  ⟨ByteArray.empty, some n, none, 0⟩

/-- A sink with room for `n` bytes in all, beside one that takes everything and has taken the same. -/
def Capped (n : Nat) (s s' : Sink) : Prop :=
  s' = { s with room := none } ∧ ∃ room, s.room = some room ∧ s.written.size + room = n

/-- A sink that has the first `n` bytes of what another one has taken, which are not all. -/
def Truncated (n : Nat) (s s' : Sink) : Prop :=
  n < s'.written.size ∧ s.written = s'.written.extract 0 n

theorem capped_bounded (n : Nat) : Capped n (bounded n) unbounded :=
  ⟨rfl, n, rfl, Nat.zero_add n⟩

theorem Capped.written_eq (h : Capped n s s') : s'.written = s.written := by
  rw [h.1]

theorem Capped.size_le (h : Capped n s s') : s.written.size ≤ n := by
  obtain ⟨-, room, -, hroom⟩ := h
  omega

theorem Truncated.later (h : Truncated n s s') (hcontinues : s'.Continues t') : Truncated n s t' := by
  obtain ⟨more, hmore⟩ := hcontinues
  obtain ⟨hsize, hwritten⟩ := h
  rw [Truncated, hmore, ByteArray.size_append, extract_append_of_le more (Nat.le_of_lt hsize)]
  exact ⟨Nat.lt_of_lt_of_le hsize (Nat.le_add_right _ _), hwritten⟩

section

variable {text : String} {written : ByteArray} {room : Nat} {flushError : Option IoError} {flushes : Nat}

theorem write_of_fits (h : text.toUTF8.size ≤ room) :
    write text ⟨written, some room, flushError, flushes⟩ =
      .ok () ⟨written ++ text.toUTF8, some (room - text.toUTF8.size), flushError, flushes⟩ :=
  if_pos h

theorem write_of_full (h : room < text.toUTF8.size) :
    write text ⟨written, some room, flushError, flushes⟩ =
      .error .sinkFull ⟨written ++ text.toUTF8.extract 0 room, some 0, flushError, flushes⟩ :=
  if_neg (Nat.not_le_of_lt h)

end

/-- A text fits both times, or the sink keeps as much of it as it has room for. -/
theorem write_capped (text : String) (h : Capped n s s') :
    ∃ t t', write text s' = .ok () t' ∧ t'.written = s'.written ++ text.toUTF8 ∧
      (write text s = .ok () t ∧ Capped n t t' ∨ write text s = .error .sinkFull t ∧ Truncated n t t') := by
  obtain ⟨written, room, flushError, flushes⟩ := s
  obtain ⟨rfl, room, rfl, rfl⟩ := h
  rcases Nat.lt_or_ge room text.toUTF8.size with hfull | hfits
  · refine ⟨_, _, rfl, rfl, .inr ⟨write_of_full hfull, ?_, (extract_append_add _ _ _).symm⟩⟩
    rw [ByteArray.size_append]
    exact Nat.add_lt_add_left hfull written.size
  · refine ⟨_, _, rfl, rfl, .inl ⟨write_of_fits hfits, rfl, _, rfl, ?_⟩⟩
    rw [ByteArray.size_append, Nat.add_assoc, Nat.add_sub_cancel' hfits]

/-- Two texts are written one after the other as both in one. -/
theorem write_append (first second : String) : (do write first; write second) = write (first ++ second) := by
  funext ⟨written, room, flushError, flushes⟩
  have hbytes : (first ++ second).toUTF8 = first.toUTF8 ++ second.toUTF8 := by
    rw [String.toUTF8_eq_toByteArray, String.toByteArray_append]
    rfl
  have hsize : (first ++ second).toUTF8.size = first.toUTF8.size + second.toUTF8.size := by
    rw [hbytes, ByteArray.size_append]
  cases room with
  | none =>
    have hfirst : write first ⟨written, none, flushError, flushes⟩ =
        .ok () ⟨written ++ first.toUTF8, none, flushError, flushes⟩ := rfl
    rw [Action.bind_ok hfirst, write, write, hbytes, ByteArray.append_assoc]
  | some room =>
    rcases Nat.lt_or_ge room first.toUTF8.size with hfull | hfits
    · have hboth : room < (first ++ second).toUTF8.size := by omega
      rw [Action.bind_error (write_of_full hfull), write_of_full hboth, hbytes,
        extract_append_of_le _ (Nat.le_of_lt hfull)]
    · obtain ⟨more, rfl⟩ := Nat.exists_eq_add_of_le hfits
      rw [Action.bind_ok (write_of_fits hfits), Nat.add_sub_cancel_left]
      rcases Nat.lt_or_ge more second.toUTF8.size with hfull | hfits
      · have hboth : first.toUTF8.size + more < (first ++ second).toUTF8.size := by omega
        rw [write_of_full hfull, write_of_full hboth, hbytes, extract_append_add, ByteArray.append_assoc]
      · have hboth : (first ++ second).toUTF8.size ≤ first.toUTF8.size + more := by omega
        rw [write_of_fits hfits, write_of_fits hboth, hsize, hbytes, ByteArray.append_assoc, Nat.add_sub_add_left]

end Sink

/-! ### Runs side by side -/

/-- Worlds that differ in such sinks only, until the first sink is full. -/
def WorldComparison.untilSinkFull (n : Nat) : WorldComparison where
  alike w w' := ∃ sink', w' = { w with sink := sink' } ∧ Sink.Capped n w.sink sink'
  cut fault w w' := fault = .io .sinkFull ∧ Sink.Truncated n w.sink w'.sink
  store_eq := by
    rintro w _ ⟨sink', rfl, -⟩
    rfl
  later h hcontinues := ⟨h.1, h.2.later hcontinues⟩

theorem WorldComparison.lawful_untilSinkFull (n : Nat) : (untilSinkFull n).Lawful where
  save := by
    rintro name v w _ ⟨sink', rfl, h⟩
    exact .ok ⟨sink', rfl, h⟩
  print := by
    rintro values w _ ⟨sink', rfl, h⟩
    obtain ⟨t, t', hwrite', -, ⟨hwrite, ht⟩ | ⟨hwrite, ht⟩⟩ :=
      Sink.write_capped (String.join (values.map Value.text) ++ "\n") h
    · rw [World.print, World.write, World.write, hwrite, hwrite']
      exact .ok ⟨t', rfl, ht⟩
    · rw [World.print, World.write, World.write, hwrite, hwrite']
      exact .cut ⟨rfl, ht⟩
  read := by
    rintro kind w _ ⟨sink', rfl, h⟩
    exact World.matches_read kind fun input => ⟨sink', rfl, h⟩
  finish := by
    rintro ⟨store, input, ⟨written, room, flushError, flushes⟩⟩ _ ⟨_, rfl, rfl, hroom⟩
    cases flushError with
    | none => exact .ok ⟨_, rfl, rfl, hroom⟩
    | some e => exact .error ⟨_, rfl, rfl, hroom⟩

namespace Machine

variable {n fuel : Nat} {input : Input} {s s' : Sink} {limit : Nat} {instructions : List Instruction} {halt' : Halt}

/-- A run on a sink that takes everything is matched on the other sink, or the sink runs full. -/
theorem run?_capped (h : Sink.Capped n s s')
    (hrun' : (Machine.new input s' limit).run? fuel instructions = some halt') :
    ∃ halt, (Machine.new input s limit).run? fuel instructions = some halt ∧
      (halt.outcome = halt'.outcome ∧ halt.machine.world.input = halt'.machine.world.input ∧
        Sink.Capped n halt.machine.world.sink halt'.machine.world.sink ∨
      halt.outcome = .error (.io .sinkFull) ∧ Sink.Truncated n halt.machine.world.sink halt'.machine.world.sink) := by
  have hlawful := (WorldComparison.lawful_untilSinkFull n).machines_eq
  have halike : ((WorldComparison.untilSinkFull n).machines Eq).alike (Machine.new input s limit).reset
      (Machine.new input s' limit).reset := ⟨rfl, rfl, s', rfl, h⟩
  cases hrun : (Machine.new input s limit).run? fuel instructions with
  | none =>
    rw [hlawful.run?_eq_none halike hrun] at hrun'
    cases hrun'
  | some halt =>
    refine ⟨halt, rfl, ?_⟩
    rcases hlawful.run?_cases halike hrun with ⟨halt'', hrun'', houtcome, -, -, sink', hworld, hsink⟩ |
      ⟨fault, left, -, rfl, -, hcut⟩
    · obtain rfl := run?_unique hrun' hrun''
      rw [hworld]
      exact .inl ⟨houtcome.symm, rfl, hsink⟩
    · obtain ⟨rfl, htruncated⟩ := hcut fuel halt' hrun'
      refine .inr ⟨rfl, ?_⟩
      rw [abort, left.machine_finish]
      exact htruncated

end Machine

/-! ### Programs and texts -/

/-- What is written before code is executed, if there is any. -/
def RunOptions.preface {ε : Type} (options : RunOptions) : Except ε Code → String
  | .ok code => if options.list then code.listing defaultTitle ++ "---\n" else ""
  | .error _ => ""

/-- What is left on a sink with room for `n` bytes, beside what is left on one that takes everything. If all fits, it is
the same. If not, the sink has the first `n` bytes, and the failure is a fault of the machine unless the preface did not
fit. -/
structure Finished.Truncates (n : Nat) (preface : String) (whole cut : Finished) : Prop where
  fits : whole.sink.written.size ≤ n →
    cut.outcome = whole.outcome ∧ cut.sink.written = whole.sink.written ∧ cut.input = whole.input
  full : n < whole.sink.written.size →
    cut.outcome = .error (if n < preface.utf8ByteSize then .io .sinkFull else .fault (.io .sinkFull)) ∧
      cut.sink.written = whole.sink.written.extract 0 n

namespace Finished

variable {n : Nat} {preface : String} {whole cut : Finished}

theorem Truncates.of_capped (h : Sink.Capped n cut.sink whole.sink) (houtcome : cut.outcome = whole.outcome)
    (hinput : cut.input = whole.input) : whole.Truncates n preface cut where
  fits _ := ⟨houtcome, h.written_eq.symm, hinput⟩
  full hlt := by
    rw [h.written_eq] at hlt
    exact absurd h.size_le (Nat.not_le_of_lt hlt)

theorem Truncates.of_truncated (h : Sink.Truncated n cut.sink whole.sink)
    (houtcome : cut.outcome = .error (if n < preface.utf8ByteSize then .io .sinkFull else .fault (.io .sinkFull))) :
    whole.Truncates n preface cut where
  fits hle := absurd h.1 (Nat.not_lt_of_le hle)
  full _ := ⟨houtcome, h.2⟩

end Finished

namespace Code

variable {code : Code} {n fuel limit : Nat} {input : Input} {s s' : Sink} {options : RunOptions} {whole : Finished}

theorem writeListing_eq (code : Code) (title : String) :
    code.writeListing title = Sink.write (code.listing title ++ "---\n") :=
  Sink.write_append _ _

theorem continues_execute? (h : code.execute? fuel input s limit = some whole) : s.Continues whole.sink := by
  obtain ⟨halt, hrun, rfl⟩ := Option.map_eq_some_iff.mp h
  exact Machine.continues_run? hrun

/-- Execution where everything before it fitted. -/
theorem execute?_truncates {preface : String} (hpreface : preface.utf8ByteSize ≤ n) (h : Sink.Capped n s s')
    (hwhole : code.execute? fuel input s' limit = some whole) :
    ∃ cut, code.execute? fuel input s limit = some cut ∧ whole.Truncates n preface cut := by
  obtain ⟨halt', hrun', rfl⟩ := Option.map_eq_some_iff.mp hwhole
  obtain ⟨halt, hrun, ⟨houtcome, hinput, hsink⟩ | ⟨houtcome, hsink⟩⟩ := Machine.run?_capped h hrun'
  · refine ⟨_, Option.map_eq_some_iff.mpr ⟨halt, hrun, rfl⟩, .of_capped hsink ?_ hinput⟩
    rw [houtcome]
  · refine ⟨_, Option.map_eq_some_iff.mpr ⟨halt, hrun, rfl⟩, .of_truncated hsink ?_⟩
    rw [houtcome, if_neg (Nat.not_lt_of_le hpreface)]
    rfl

theorem run?_listed (h : options.list = true) (s : Sink) :
    code.run? fuel input s options =
      match Sink.write (code.listing defaultTitle ++ "---\n") s with
      | .ok () s => code.execute? fuel input s options.limit
      | .error e s => some ⟨.error (.io e), s, input⟩ := by
  rw [← writeListing_eq]
  exact if_pos h

theorem run?_truncates (ε : Type) (n : Nat) (hwhole : code.run? fuel input .unbounded options = some whole) :
    ∃ cut, code.run? fuel input (.bounded n) options = some cut ∧
      whole.Truncates n (options.preface (.ok code : Except ε Code)) cut := by
  cases hlist : options.list with
  | false =>
    have hpreface : options.preface (.ok code : Except ε Code) = "" := by simp [RunOptions.preface, hlist]
    rw [run?, if_neg (by simp [hlist])] at hwhole
    rw [run?, if_neg (by simp [hlist]), hpreface]
    exact execute?_truncates (Nat.zero_le n) (Sink.capped_bounded n) hwhole
  | true =>
    have hpreface : options.preface (.ok code : Except ε Code) = code.listing defaultTitle ++ "---\n" := if_pos hlist
    rw [run?_listed hlist] at hwhole
    rw [run?_listed hlist, hpreface]
    generalize code.listing defaultTitle ++ "---\n" = preface at hwhole ⊢
    obtain ⟨t, t', hwrite', hwritten, hcase⟩ := Sink.write_capped preface (Sink.capped_bounded n)
    have hsize : t'.written.size = preface.utf8ByteSize := by
      rw [hwritten, String.toUTF8_eq_toByteArray, ByteArray.size_append, String.size_toByteArray]
      exact Nat.zero_add _
    rw [hwrite'] at hwhole
    rcases hcase with ⟨hwrite, ht⟩ | ⟨hwrite, ht⟩
    · rw [hwrite]
      have hfits : preface.utf8ByteSize ≤ n := by
        rw [← hsize, ht.written_eq]
        exact ht.size_le
      exact execute?_truncates hfits ht hwhole
    · rw [hwrite]
      refine ⟨_, rfl, .of_truncated (ht.later (continues_execute? hwhole)) ?_⟩
      rw [if_pos (hsize ▸ ht.1)]

end Code

/-- A sink that runs full cuts off what is written, and does nothing else. If all that is written to a sink without
bound fits into `n` bytes, the result is the same on a sink with room for `n` bytes. Otherwise that sink has the first
`n` bytes, and the run fails there: with a failure of its own if the listing was being written, and with a fault if code
was executed. -/
theorem sink_truncates (n fuel : Nat) (input : Input) (options : RunOptions) :
    (∀ program whole, runProgram? program fuel input .unbounded options = some whole →
      ∃ cut, runProgram? program fuel input (.bounded n) options = some cut ∧
        whole.Truncates n (options.preface program.compile) cut) ∧
    ∀ text whole, runText? text fuel input .unbounded options = some whole →
      ∃ cut, runText? text fuel input (.bounded n) options = some cut ∧
        whole.Truncates n (options.preface (Code.assemble text)) cut := by
  refine ⟨fun program whole hwhole => ?_, fun text whole hwhole => ?_⟩
  · unfold runProgram? at hwhole ⊢
    cases hcompile : program.compile with
    | error failure =>
      rw [hcompile] at hwhole
      cases hwhole
      exact ⟨_, rfl, .of_capped (Sink.capped_bounded n) rfl rfl⟩
    | ok code =>
      rw [hcompile] at hwhole
      exact code.run?_truncates _ n hwhole
  · unfold runText? at hwhole ⊢
    cases hassemble : Code.assemble text with
    | error e =>
      rw [hassemble] at hwhole
      cases hwhole
      exact ⟨_, rfl, .of_capped (Sink.capped_bounded n) rfl rfl⟩
    | ok code =>
      rw [hassemble] at hwhole
      exact code.run?_truncates _ n hwhole

/-- `write 12; write 34;` -/
def Program.writingTwice : Program :=
  [.write [.int 12 .unknown] (by decide) .unknown, .write [.int 34 .unknown] (by decide) .unknown]

/-- With room for four bytes, the second line is cut off after its first digit. If the code is to be listed, its listing
is cut off, and nothing is executed. -/
theorem sink_truncates_midline :
    (∃ cut, runProgram? .writingTwice 9 [] (.bounded 4) ⟨false, 2⟩ = some cut ∧
      cut.outcome = .error (.fault (.io .sinkFull)) ∧ cut.sink.written = "12\n3".toUTF8) ∧
    ∃ cut, runProgram? .writingTwice 9 [] (.bounded 4) ⟨true, 2⟩ = some cut ∧
      cut.outcome = .error (.io .sinkFull) ∧ cut.sink.written = "== p".toUTF8 := by
  constructor
  · obtain ⟨whole, hwhole, hwritten⟩ : ∃ whole, runProgram? .writingTwice 9 [] .unbounded ⟨false, 2⟩ = some whole ∧
        whole.sink.written = "12\n34\n".toUTF8 :=
      ⟨_, rfl, by decide +kernel⟩
    obtain ⟨cut, hcut, htruncates⟩ := (sink_truncates 4 9 [] ⟨false, 2⟩).1 .writingTwice whole hwhole
    obtain ⟨houtcome, hcutWritten⟩ := htruncates.full (by rw [hwritten]; decide)
    exact ⟨cut, hcut, houtcome, by rw [hcutWritten, hwritten]; decide +kernel⟩
  · obtain ⟨whole, hwhole, hsize, hstart⟩ : ∃ whole, runProgram? .writingTwice 9 [] .unbounded ⟨true, 2⟩ = some whole ∧
        4 < whole.sink.written.size ∧ whole.sink.written.extract 0 4 = "== p".toUTF8 :=
      ⟨_, rfl, by decide +kernel, by decide +kernel⟩
    have hpreface : 4 < (RunOptions.preface ⟨true, 2⟩ (Program.compile .writingTwice)).utf8ByteSize := by decide +kernel
    obtain ⟨cut, hcut, htruncates⟩ := (sink_truncates 4 9 [] ⟨true, 2⟩).1 .writingTwice whole hwhole
    obtain ⟨houtcome, hcutWritten⟩ := htruncates.full hsize
    rw [if_pos hpreface] at houtcome
    exact ⟨cut, hcut, houtcome, hcutWritten.trans hstart⟩

end StackMachine
