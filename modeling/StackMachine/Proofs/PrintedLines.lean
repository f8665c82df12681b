import StackMachine.Proofs.Labelling
import StackMachine.Proofs.LineInput
import StackMachine.Proofs.StmtCode
import StackMachine.Proofs.Tokens

/-! What is printed can be read.

A value is printed as the bytes of its text and a newline. If the text holds no newline and does not end in a carriage
return, the line that is read has the same bytes again (`Input.firstLine_line`), for in UTF-8 a byte below 128 is never a
part of a longer character (`Text.encode_eq_singleton`). From the text of an integer, a truth value or a string the same
value is read (`Value.FitsLine.ofLine?_text`). Main statement: `Machine.printed_reads_back`. -/

namespace StackMachine

/-! ### Bytes of a text -/

namespace Text

variable {s : String} {c : Char} {byte : UInt8}

/-- The UTF-8 of a text. -/
def bytes (s : String) : List UInt8 :=
  s.toUTF8.data.toList

theorem bytes_eq_flatMap (s : String) : bytes s = s.toList.flatMap String.utf8EncodeChar := by
  have hencode : s.toUTF8 = (s.toList.flatMap String.utf8EncodeChar).toByteArray := String.utf8Encode_toList.symm
  rw [bytes, hencode, List.toList_data_toByteArray]

theorem bytes_append (s t : String) : bytes (s ++ t) = bytes s ++ bytes t := by
  rw [bytes_eq_flatMap, bytes_eq_flatMap, bytes_eq_flatMap, String.toList_append, List.flatMap_append]

theorem decode?_bytes (s : String) : Input.decode? (bytes s) = some s := by
  have hvalid : s.toUTF8.IsValidUTF8 := s.isValidUTF8
  have hbytes : (⟨(bytes s).toArray⟩ : ByteArray) = s.toUTF8 := by rw [bytes, Array.toArray_toList]
  rw [Input.decode?, hbytes, String.fromUTF8?, dif_pos hvalid]
  rfl

/-- A byte below 128 is a character of its own: all bytes of a longer character have their highest bit set. -/
theorem encode_eq_singleton (h : byte ∈ String.utf8EncodeChar c) (hbyte : byte.toNat < 128) :
    c = Char.ofNat byte.toNat ∧ String.utf8EncodeChar c = [byte] := by
  unfold String.utf8EncodeChar at h ⊢
  dsimp only at h ⊢
  split at h
  · rename_i hc
    rw [if_pos hc]
    obtain rfl := List.mem_singleton.mp h
    have htoNat : (UInt8.ofNat c.val.toNat).toNat = c.toNat :=
      UInt8.toNat_ofNat_of_lt' (Nat.lt_of_le_of_lt hc (by decide))
    exact ⟨by rw [htoNat, Char.ofNat_toNat], rfl⟩
  · exfalso
    split at h
    · simp only [List.mem_cons, List.not_mem_nil, or_false] at h
      rcases h with rfl | rfl <;> simp only [UInt8.toNat_ofNat'] at hbyte <;> omega
    · split at h
      · simp only [List.mem_cons, List.not_mem_nil, or_false] at h
        rcases h with rfl | rfl | rfl <;> simp only [UInt8.toNat_ofNat'] at hbyte <;> omega
      · simp only [List.mem_cons, List.not_mem_nil, or_false] at h
        rcases h with rfl | rfl | rfl | rfl <;> simp only [UInt8.toNat_ofNat'] at hbyte <;> omega

theorem mem_of_mem_bytes (h : byte ∈ bytes s) (hbyte : byte.toNat < 128) : Char.ofNat byte.toNat ∈ s.toList := by
  rw [bytes_eq_flatMap] at h
  obtain ⟨c, hc, hmem⟩ := List.mem_flatMap.mp h
  rwa [← (encode_eq_singleton hmem hbyte).1]

theorem getLast?_of_getLast?_bytes (h : (bytes s).getLast? = some byte) (hbyte : byte.toNat < 128) :
    s.toList.getLast? = some (Char.ofNat byte.toNat) := by
  rw [bytes_eq_flatMap] at h
  rcases List.eq_nil_or_concat s.toList with hnil | ⟨before, c, hlast⟩
  · rw [hnil] at h
    cases h
  · rw [hlast, List.concat_eq_append, List.flatMap_append, List.flatMap_singleton,
      List.getLast?_append_of_ne_nil _ String.utf8EncodeChar_ne_nil] at h
    have hc := (encode_eq_singleton (List.mem_of_getLast? h) hbyte).1
    rw [hlast, hc, List.concat_eq_append, List.getLast?_concat]

end Text

/-! ### Lines -/

/-- A text that makes one line and is read as it was written. -/
structure Text.FitsLine (s : String) : Prop where
  no_newline : '\n' ∉ s.toList
  no_return : s.toList.getLast? ≠ some '\r'

namespace Text

variable {s : String}

theorem FitsLine.newline_not_mem (h : FitsLine s) : newline ∉ bytes s :=
  fun hmem => h.no_newline (mem_of_mem_bytes hmem (by decide))

theorem FitsLine.getLast?_ne (h : FitsLine s) : (bytes s).getLast? ≠ some carriageReturn :=
  fun hlast => h.no_return (getLast?_of_getLast?_bytes hlast (by decide))

theorem FitsLine.of_unbroken (h : Unbroken s.toList) : FitsLine s where
  no_newline hmem := nomatch h _ hmem
  no_return hlast := nomatch h _ (List.mem_of_getLast? hlast)

/-- The bytes of a text and of the newline behind it. -/
def line (s : String) : Input :=
  bytes s ++ [newline]

theorem bytes_newline (s : String) : bytes (s ++ "\n") = line s := by
  rw [bytes_append, line]
  rfl

end Text

namespace Input

open Text

variable {s : String}

theorem firstLine_line (h : FitsLine s) (rest : Input) : firstLine (line s ++ rest) = bytes s := by
  have htake : (bytes s ++ newline :: rest).takeWhile (· != newline) = bytes s := by
    rw [List.takeWhile_append_of_pos (all_ne_newline h.newline_not_mem)]
    simp
  rw [line, List.append_assoc, List.singleton_append, firstLine, htake, if_neg]
  simp [h.getLast?_ne]

theorem afterLine_line (h : FitsLine s) (rest : Input) : afterLine (line s ++ rest) = rest := by
  rw [line, List.append_assoc, List.singleton_append, afterLine_append h.newline_not_mem]

end Input

/-! ### Values -/

namespace Value

/-- The values that stand on a line when they are printed and can be told from it. The text of a float need not have all
of its digits, so floats are not among them. -/
def FitsLine : Value → Prop
  | .int _ | .bool _ => True
  | .string s => Text.FitsLine s
  | .float _ => False

variable {v : Value}

theorem FitsLine.text (h : v.FitsLine) : Text.FitsLine v.text := by
  cases v with
  | int n => exact .of_unbroken (Text.unbroken_toString n.toInt)
  | float x => cases h
  | string s => exact h
  | bool b => exact .of_unbroken (by cases b <;> decide)

theorem FitsLine.ofLine?_text (h : v.FitsLine) : ofLine? v.kind v.text = some v := by
  cases v with
  | int n =>
    show (Text.int64? (Text.trim (toString n.toInt).toList)).map Value.int = _
    rw [(Text.unbroken_toString n.toInt).trim_eq]
    exact ofLiteral?_int n
  | float x => cases h
  | string s => rfl
  | bool b => cases b <;> decide

/-- The literal expression of a value. -/
def toExpr : Value → Expr
  | .int n => .int n .unknown
  | .float x => .float x .unknown
  | .string s => .string s .unknown
  | .bool b => .bool b .unknown

end Value

/-! ### Code that prints and code that reads -/

/-- Prints values, each on a line. -/
def printing (values : List Value) : List Instruction :=
  values.flatMap fun v => [.push v.kind v.literal, .print 1]

/-- Reads values of some kinds, each from a line, and saves them under names. -/
def reading (targets : List (String × Kind)) : List Instruction :=
  targets.flatMap fun (name, kind) => [.read kind, .save kind name]

theorem length_printing (values : List Value) : (printing values).length = 2 * values.length := by
  simp [printing, Nat.mul_comm]

theorem length_reading (targets : List (String × Kind)) : (reading targets).length = 2 * targets.length := by
  simp [reading, Nat.mul_comm]

/-- The lines that the values make. -/
def Value.lines (values : List Value) : Input :=
  values.flatMap fun v => Text.line v.text

theorem straight_printing (values : List Value) : ∀ i ∈ printing values, i.Straight := by
  intro i hi
  obtain ⟨v, -, hi⟩ := List.mem_flatMap.mp hi
  have hcount : 1 < maxListed := by decide
  rcases List.mem_pair.mp hi with rfl | rfl
  · exact .push v
  · exact .print hcount

theorem straight_reading (targets : List (String × Kind)) : ∀ i ∈ reading targets, i.Straight := by
  intro i hi
  obtain ⟨⟨name, kind⟩, -, hi⟩ := List.mem_flatMap.mp hi
  rcases List.mem_pair.mp hi with rfl | rfl
  · exact .typed kind.mem_all rfl
  · exact .save kind name

/-- The code that prints values is that of statements that write them. -/
theorem Program.lower_writing (values : List Value) (oracle : Oracle) :
    ∃ code, Program.lower (values.map fun v => .writing v.toExpr) oracle = .ok code ∧
      code.instructions = printing values := by
  have hall : ∀ n, ∃ emitted, Stmt.lowerAll oracle (values.map fun v => .writing v.toExpr) n = .ok (emitted, n) ∧
      emitted.map Prod.fst = printing values := by
    intro n
    induction values with
    | nil => exact ⟨[], rfl, rfl⟩
    | cons v rest ih =>
      obtain ⟨emitted, hlower, hcode⟩ := ih
      have hfirst : (Stmt.writing v.toExpr).lower oracle n =
          .ok ([(.push v.kind v.literal, Span.unknown.line), (.print 1, Span.unknown.line)], n) := by cases v <;> rfl
      refine ⟨_, (Except.bind_ok hfirst).trans (Except.bind_ok hlower), ?_⟩
      rw [List.map_append, hcode]
      rfl
  obtain ⟨emitted, hlower, hcode⟩ := hall 0
  exact ⟨Code.ofPairs emitted, Except.bind_ok hlower, hcode⟩

/-- Code without jumps and labels runs from its start to its end. -/
theorem Machine.run?_straight {m m' : Machine} {code : List Instruction} (hcode : ∀ i ∈ code, i.Straight)
    (h : Exec.straight code m.reset = .ok () m') : m.run? (code.length + 1) code = some m'.finish := by
  have hlabels : definedLabels code = [] := List.filterMap_eq_nil_iff.mpr fun i hi => (hcode i hi).labelName?
  have hjumps : ∀ i ∈ code, i.jumpName? = none := fun i hi => by rw [Instruction.jumpName?, (hcode i hi).isJump]; rfl
  obtain ⟨image, hlink⟩ : ∃ image, Image.link code = .ok image := by
    refine Image.link_ok (fun i hi => (Instruction.Generated.straight (hcode i hi)).named) ?_ fun i hi name hname => ?_
    · rw [hlabels]
      exact List.nodup_nil
    · cases (hjumps i hi).symm.trans hname
  obtain ⟨labels, hholds, hsize⟩ := Image.link_holds hlink
  have hleads := hholds.leads (fun i hi => (hcode i hi).isJump) h
  rw [Nat.zero_add] at hleads
  have hend : image.step code.length m' = .finished m' := by
    rw [Image.step, Array.getElem?_eq_none hsize.le]
  rw [run?, hlink]
  dsimp only
  rw [hleads.run?_add, Image.run?_of_finished hend]

namespace Store

/-- Inserts values one after the other. -/
def insertAll (store : Store) (pairs : List (String × Value)) : Store :=
  pairs.foldl (fun store pair => store.insert pair.1 pair.2) store

/-- Under names that differ each value stays. -/
theorem get?_insertAll {pairs : List (String × Value)} (hnames : (pairs.map Prod.fst).Nodup) (store : Store)
    (name : String) (v : Value) :
    (store.insertAll pairs).get? name = some v ↔
      (name, v) ∈ pairs ∨ name ∉ pairs.map Prod.fst ∧ store.get? name = some v := by
  induction pairs generalizing store with
  | nil => simp [insertAll]
  | cons pair rest ih =>
    obtain ⟨key, w⟩ := pair
    obtain ⟨hkey, hrest⟩ := List.nodup_cons.mp hnames
    have hinsert : store.insertAll ((key, w) :: rest) = (store.insert key w).insertAll rest := rfl
    rw [hinsert, ih hrest, get?_insert]
    by_cases hname : name = key
    · subst hname
      have hv : (name, v) ∉ rest := fun hmem => hkey (List.mem_map.mpr ⟨(name, v), hmem, rfl⟩)
      simp [hv, hkey, eq_comm]
    · simp [hname]

end Store

namespace World

/-- In a sink without bound everything can be printed. -/
theorem print_of_room {w : World} (h : w.sink.room = none) (v : Value) :
    ∃ sink, print [v] w = .ok () { w with sink := sink } ∧
      sink.written.data.toList = w.sink.written.data.toList ++ Text.line v.text ∧
      sink.room = none ∧ sink.flushError = w.sink.flushError := by
  obtain ⟨store, input, ⟨written, room, flushError, flushes⟩⟩ := w
  obtain rfl : room = none := h
  refine ⟨_, rfl, ?_, rfl, rfl⟩
  have hjoin : String.join ([v].map Value.text) = v.text := by simp
  rw [ByteArray.toList_data_append, hjoin, ← Text.bytes_newline, Text.bytes]

theorem read_line {v : Value} (h : v.FitsLine) (store : Store) (rest : Input) (sink : Sink) :
    read v.kind ⟨store, Text.line v.text ++ rest, sink⟩ = .ok v ⟨store, rest, sink⟩ := by
  have hne : Text.line v.text ++ rest ≠ [] := by simp [Text.line]
  have hline : readLine ⟨store, Text.line v.text ++ rest, sink⟩ = .ok v.text ⟨store, rest, sink⟩ := by
    simp [readLine, hne, Input.firstLine_line h.text, Input.afterLine_line h.text, Text.decode?_bytes]
  rw [read, Action.bind_ok hline, h.ofLine?_text]
  rfl

end World

namespace Exec

variable {w : World} {limit : Nat}

theorem printing_ok (values : List Value) (hlimit : 0 < limit) (hroom : w.sink.room = none) :
    ∃ sink, straight (printing values) ⟨.empty, w, limit⟩ = .ok () ⟨.empty, { w with sink := sink }, limit⟩ ∧
      sink.written.data.toList = w.sink.written.data.toList ++ Value.lines values ∧
      sink.flushError = w.sink.flushError := by
  induction values generalizing w with
  | nil => exact ⟨w.sink, rfl, (List.append_nil _).symm, rfl⟩
  | cons v rest ih =>
    obtain ⟨sink, hprint, hwritten, hroom, hflush⟩ := World.print_of_room hroom v
    obtain ⟨sink', hrest, hwritten', hflush'⟩ := ih (w := { w with sink := sink }) hroom
    have hpush : perform (.push v) ⟨.empty, w, limit⟩ = .ok .next ⟨Stack.empty.push v, w, limit⟩ :=
      Action.bind_ok (if_pos hlimit)
    have hact : act (World.print [v]) ⟨.empty, w, limit⟩ = .ok () ⟨.empty, { w with sink := sink }, limit⟩ := by
      rw [act, hprint]
    have hperform : perform (.print 1) ⟨Stack.empty.push v, w, limit⟩ =
        .ok .next ⟨.empty, { w with sink := sink }, limit⟩ :=
      (Action.bind_ok (take_pushAll .print .empty [v] w limit)).trans (Action.bind_ok hact)
    refine ⟨sink', ?_, ?_, hflush'.trans hflush⟩
    · rw [printing, List.flatMap_cons, List.cons_append, straight_cons_ok (decode_push v) hpush]
      exact (straight_cons_ok (decode_print (by decide)) hperform).trans hrest
    · rw [hwritten', hwritten, List.append_assoc]
      rfl

/-- The reading code takes the lines of the values, and the values go into the store. -/
theorem reading_ok (pairs : List (String × Value)) (hlimit : 0 < limit) (hvalues : ∀ pair ∈ pairs, pair.2.FitsLine)
    (store : Store) (sink : Sink) :
    straight (reading (pairs.map (Prod.map id Value.kind)))
        ⟨.empty, ⟨store, Value.lines (pairs.map Prod.snd), sink⟩, limit⟩ =
      .ok () ⟨.empty, ⟨store.insertAll pairs, [], sink⟩, limit⟩ := by
  induction pairs generalizing store with
  | nil => rfl
  | cons pair rest ih =>
    obtain ⟨name, v⟩ := pair
    have hlines : Value.lines (((name, v) :: rest).map Prod.snd) =
        Text.line v.text ++ Value.lines (rest.map Prod.snd) := rfl
    have hact : act (World.read v.kind)
        ⟨.empty, ⟨store, Text.line v.text ++ Value.lines (rest.map Prod.snd), sink⟩, limit⟩ =
          .ok v ⟨.empty, ⟨store, Value.lines (rest.map Prod.snd), sink⟩, limit⟩ := by
      rw [act, World.read_line (hvalues _ List.mem_cons_self)]
    have hpush : push v ⟨.empty, ⟨store, Value.lines (rest.map Prod.snd), sink⟩, limit⟩ =
        .ok () ⟨Stack.empty.push v, ⟨store, Value.lines (rest.map Prod.snd), sink⟩, limit⟩ := if_pos hlimit
    have hread : perform (.read v.kind)
        ⟨.empty, ⟨store, Text.line v.text ++ Value.lines (rest.map Prod.snd), sink⟩, limit⟩ =
          .ok .next ⟨Stack.empty.push v, ⟨store, Value.lines (rest.map Prod.snd), sink⟩, limit⟩ :=
      (Action.bind_ok hact).trans (Action.bind_ok hpush)
    have hd : (Instruction.read v.kind).decode none = .ok (.read v.kind) := rfl
    have hd' : (Instruction.save v.kind name).decode none = .ok (.save v.kind name) := rfl
    rw [hlines, List.map_cons, reading, List.flatMap_cons, List.cons_append]
    refine (straight_cons_ok hd hread).trans ((straight_cons_ok hd' (perform_save rfl)).trans ?_)
    exact ih (fun pair hpair => hvalues pair (List.mem_cons_of_mem _ hpair)) (store.insert name v)

end Exec

namespace Machine

/-- What code printed that writes integers, truth values and strings without a newline in them or a carriage return at
their end, code that reads values of these kinds takes in again: it saves each value under its name and nothing else,
and leaves no input. -/
theorem printed_reads_back (pairs : List (String × Value)) (hnames : (pairs.map Prod.fst).Nodup)
    (hvalues : ∀ pair ∈ pairs, pair.2.FitsLine) :
    (∀ oracle, ∃ code, Program.lower (pairs.map fun pair => .writing pair.2.toExpr) oracle = .ok code ∧
      code.instructions = printing (pairs.map Prod.snd)) ∧
    ∀ writer : Machine, 0 < writer.limit → writer.world.sink.room = none → writer.world.sink.flushError = none →
      ∃ halt output, writer.run? (2 * pairs.length + 1) (printing (pairs.map Prod.snd)) = some halt ∧
        halt.outcome = .ok () ∧
        halt.machine.world.sink.written.data.toList = writer.world.sink.written.data.toList ++ output ∧
        ∀ reader : Machine, 0 < reader.limit → reader.world.sink.flushError = none → reader.world.input = output →
          ∃ halt', reader.run? (2 * pairs.length + 1) (reading (pairs.map (Prod.map id Value.kind))) = some halt' ∧
            halt'.outcome = .ok () ∧ halt'.machine.world.input = [] ∧
            ∀ name v, halt'.machine.world.store.get? name = some v ↔ (name, v) ∈ pairs := by
  refine ⟨fun oracle => ?_, fun writer hlimit hroom hflush => ?_⟩
  · obtain ⟨code, hcode, hinstructions⟩ := Program.lower_writing (pairs.map Prod.snd) oracle
    rw [List.map_map] at hcode
    exact ⟨code, hcode, hinstructions⟩
  · obtain ⟨sink, hprinting, hwritten, hflush'⟩ :=
      Exec.printing_ok (w := writer.reset.world) (pairs.map Prod.snd) hlimit hroom
    have hrun := run?_straight (m := writer) (straight_printing _) hprinting
    rw [length_printing, List.length_map] at hrun
    refine ⟨_, Value.lines (pairs.map Prod.snd), hrun, outcome_finish (hflush'.trans hflush), ?_, ?_⟩
    · rw [machine_finish]
      exact hwritten
    · rintro ⟨stack, ⟨store, input, sink⟩, limit⟩ hlimit hflush hinput
      obtain rfl : input = Value.lines (pairs.map Prod.snd) := hinput
      have hreading := Exec.reading_ok pairs hlimit hvalues .empty sink
      have hrun := run?_straight (m := ⟨stack, ⟨store, Value.lines (pairs.map Prod.snd), sink⟩, limit⟩)
        (straight_reading _) hreading
      rw [length_reading, List.length_map] at hrun
      refine ⟨_, hrun, outcome_finish hflush, ?_, fun name v => ?_⟩
      · rw [machine_finish]
      · rw [machine_finish]
        simpa using Store.get?_insertAll hnames .empty name v

/-- The least integer, an empty string, one with blanks around a carriage return, and a truth value. -/
def mixed : List (String × Value) :=
  [("a", .int Int64.minValue), ("b", .string ""), ("c", .string " \r "), ("d", .bool false)]

theorem printed_reads_back_mixed :
    (mixed.map Prod.fst).Nodup ∧ (∀ pair ∈ mixed, pair.2.FitsLine) ∧
    ∃ halt output, (new [] .unbounded 1).run? 9 (printing (mixed.map Prod.snd)) = some halt ∧
      halt.machine.world.sink.written.data.toList = output ∧
      ∃ halt', (new output .unbounded 1).run? 9 (reading (mixed.map (Prod.map id Value.kind))) = some halt' ∧
        halt'.outcome = .ok () ∧ halt'.machine.world.input = [] ∧
        halt'.machine.world.store.get? "a" = some (.int Int64.minValue) ∧
        halt'.machine.world.store.get? "c" = some (.string " \r ") := by
  have hnames : (mixed.map Prod.fst).Nodup := by decide
  have hvalues : ∀ pair ∈ mixed, pair.2.FitsLine := by
    simp only [mixed, List.forall_mem_cons]
    exact ⟨trivial, ⟨by decide, by decide⟩, ⟨by decide, by decide⟩, trivial, nofun⟩
  obtain ⟨halt, output, hrun, -, hwritten, hreads⟩ :=
    (printed_reads_back mixed hnames hvalues).2 (new [] .unbounded 1) Nat.one_pos rfl rfl
  obtain ⟨halt', hrun', houtcome, hinput, hstore⟩ := hreads (new output .unbounded 1) Nat.one_pos rfl rfl
  exact ⟨hnames, hvalues, halt, output, hrun, hwritten, halt', hrun', houtcome, hinput,
    (hstore _ _).mpr (by simp [mixed]), (hstore _ _).mpr (by simp [mixed])⟩

end Machine

end StackMachine
