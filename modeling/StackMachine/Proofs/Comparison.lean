import StackMachine.Proofs.Runs

/-! Machines side by side.

Two machines that differ only in their means, such as room on the stack, input or room in the sink, do the same step by
step until the first lacks what the second has. A `Comparison` says how two such machines are compared. Operations
respect it if the elementary actions do (`Respects.perform`), and then two runs keep together (`Lawful.leads`) until the
first is cut short (`Lawful.run?_cases`). What an operation keeps of one machine is the case of a machine beside itself
(`Comparison.keeping`). -/

namespace StackMachine

/-! ### What is left -/

/-- The state that an action leaves, whether it fails or not. -/
def stateAfter {ε σ α : Type} : EStateM.Result ε σ α → σ
  | .ok _ s | .error _ s => s

/-- What holds after one action and is kept by a second holds after both. -/
theorem stateAfter_bind {ε σ α β : Type} {P : σ → Prop} {x : EStateM ε σ α} {f : α → EStateM ε σ β} {s : σ}
    (hx : P (stateAfter (x s))) (hf : ∀ a t, P t → P (stateAfter (f a t))) : P (stateAfter ((x >>= f) s)) := by
  cases hr : x s with
  | ok a t =>
    rw [hr] at hx
    rw [Action.bind_ok hr]
    exact hf a t hx
  | error e t =>
    rw [hr] at hx
    rwa [Action.bind_error hr]

def Progress.machine : Progress → Machine
  | .running _ m | .finished m | .faulted _ m => m

namespace Sink

variable {s s' s'' : Sink}

/-- What was written to `s'` begins with what was written to `s`. -/
def Continues (s s' : Sink) : Prop :=
  ∃ more, s'.written = s.written ++ more

theorem Continues.of_eq (h : s'.written = s.written) : s.Continues s' :=
  ⟨ByteArray.empty, by rw [h, ByteArray.append_empty]⟩

theorem Continues.refl (s : Sink) : s.Continues s :=
  .of_eq rfl

theorem Continues.trans (h : s.Continues s') (h' : s'.Continues s'') : s.Continues s'' := by
  obtain ⟨more, h⟩ := h
  obtain ⟨more', h'⟩ := h'
  exact ⟨more ++ more', by rw [h', h, ByteArray.append_assoc]⟩

theorem continues_write (text : String) (s : Sink) : s.Continues (stateAfter (write text s)) := by
  obtain ⟨written, room, flushError, flushes⟩ := s
  unfold write
  dsimp only
  split
  · exact ⟨text.toUTF8, rfl⟩
  · split
    · exact ⟨text.toUTF8, rfl⟩
    · exact ⟨text.toUTF8.extract 0 _, rfl⟩

end Sink

namespace World

theorem stateAfter_write (text : String) (w : World) :
    stateAfter (write text w) = { w with sink := stateAfter (Sink.write text w.sink) } := by
  rw [write]
  cases Sink.write text w.sink <;> rfl

theorem continues_print (values : List Value) (w : World) : w.sink.Continues (stateAfter (print values w)).sink := by
  rw [print, stateAfter_write]
  exact Sink.continues_write _ w.sink

theorem read_of_nil (kind : Kind) {w : World} (h : w.input = []) : read kind w = .error .endOfInput w := by
  have hline : readLine w = .error .endOfInput w := if_pos (List.isEmpty_iff.mpr h)
  exact Action.bind_error hline

/-- What is read depends on the first line only, and this line is taken whatever it is. -/
theorem read_of_ne_nil (kind : Kind) (line : List UInt8) :
    (∃ v, ∀ w : World, w.input ≠ [] → w.input.firstLine = line →
      read kind w = .ok v { w with input := w.input.afterLine }) ∨
    ∃ fault, ∀ w : World, w.input ≠ [] → w.input.firstLine = line →
      read kind w = .error fault { w with input := w.input.afterLine } := by
  cases hdecode : Input.decode? line with
  | none =>
    have hline : ∀ w : World, w.input ≠ [] → w.input.firstLine = line →
        readLine w = .error (.io .notUtf8) { w with input := w.input.afterLine } := by
      rintro w hne rfl
      simp [readLine, hne, hdecode]
    exact .inr ⟨_, fun w hne hfirst => Action.bind_error (hline w hne hfirst)⟩
  | some text =>
    have hline : ∀ w : World, w.input ≠ [] → w.input.firstLine = line →
        readLine w = .ok text { w with input := w.input.afterLine } := by
      rintro w hne rfl
      simp [readLine, hne, hdecode]
    cases hvalue : Value.ofLine? kind text with
    | none => exact .inr ⟨_, fun w hne hfirst => by rw [read, Action.bind_ok (hline w hne hfirst), hvalue]; rfl⟩
    | some v => exact .inl ⟨v, fun w hne hfirst => by rw [read, Action.bind_ok (hline w hne hfirst), hvalue]; rfl⟩

theorem stateAfter_read (kind : Kind) {w : World} (h : w.input ≠ []) :
    stateAfter (read kind w) = { w with input := w.input.afterLine } := by
  rcases read_of_ne_nil kind w.input.firstLine with ⟨v, hread⟩ | ⟨fault, hread⟩
  · rw [hread w h rfl, stateAfter]
  · rw [hread w h rfl, stateAfter]

theorem sink_read (kind : Kind) (w : World) : (stateAfter (read kind w)).sink = w.sink := by
  by_cases hne : w.input = []
  · rw [read_of_nil kind hne, stateAfter]
  · rw [stateAfter_read kind hne]

end World

theorem Stack.size_le_of_pop? {s rest : Stack} {v : Value} (h : s.pop? = some (v, rest)) : rest.size ≤ s.size := by
  obtain ⟨values, size, hsize⟩ := s
  cases values <;> cases h
  exact Nat.sub_le size 1

namespace Exec

variable {α : Type} {action : Act α}

theorem stateAfter_act (action : Act α) (m : Machine) :
    stateAfter (act action m) = { m with world := stateAfter (action m.world) } := by
  rw [act]
  cases action m.world <;> rfl

theorem continues_push (v : Value) (m : Machine) : m.world.sink.Continues (stateAfter (push v m)).world.sink := by
  unfold push
  split <;> exact .refl m.world.sink

theorem continues_act (h : ∀ w : World, w.sink.Continues (stateAfter (action w)).sink) (m : Machine) :
    m.world.sink.Continues (stateAfter (act action m)).world.sink := by
  rw [stateAfter_act]
  exact h m.world

end Exec

/-! ### Comparisons -/

/-- How an action ends on two states: both times alike, or the first time it is cut short. -/
inductive Matches {σ α : Type} (alike : σ → σ → Prop) (cut : Fault → σ → σ → Prop) :
    EStateM.Result Fault σ α → EStateM.Result Fault σ α → Prop where
  | ok {a : α} {s s' : σ} (h : alike s s') : Matches alike cut (.ok a s) (.ok a s')
  | error {fault : Fault} {s s' : σ} (h : alike s s') : Matches alike cut (.error fault s) (.error fault s')
  | cut {fault : Fault} {s : σ} {result : EStateM.Result Fault σ α} (h : cut fault s (stateAfter result)) :
      Matches alike cut (.error fault s) result

/-- A line is read whatever the sink is. -/
theorem World.matches_read {alike : World → World → Prop} {cut : Fault → World → World → Prop} (kind : Kind) {w : World}
    {sink' : Sink} (h : ∀ input, alike { w with input := input } { w with input := input, sink := sink' }) :
    Matches alike cut (read kind w) (read kind { w with sink := sink' }) := by
  by_cases hne : w.input = []
  · have hread' : read kind { w with sink := sink' } = .error .endOfInput { w with sink := sink' } :=
      read_of_nil kind hne
    rw [read_of_nil kind hne, hread']
    exact .error (h w.input)
  · rcases read_of_ne_nil kind w.input.firstLine with ⟨v, hread⟩ | ⟨fault, hread⟩
    · rw [hread w hne rfl, hread { w with sink := sink' } hne rfl]
      exact .ok (h w.input.afterLine)
    · rw [hread w hne rfl, hread { w with sink := sink' } hne rfl]
      exact .error (h w.input.afterLine)

/-- How two machines are compared of which the first may be cut short. -/
structure Comparison where
  /-- The machines have done the same so far. -/
  alike : Machine → Machine → Prop
  /-- The first machine faulted where the second one did not, or not so. -/
  cut : Fault → Machine → Machine → Prop
  stack_eq : ∀ {m m'}, alike m m' → m'.stack = m.stack
  store_eq : ∀ {m m'}, alike m m' → m'.world.store = m.world.store
  shrink : ∀ {m m'} (s : Stack), alike m m' → s.size ≤ m.stack.size →
    alike { m with stack := s } { m' with stack := s }
  later : ∀ {fault m m' m''}, cut fault m m' → m'.world.sink.Continues m''.world.sink → cut fault m m''

namespace Comparison

variable {c : Comparison} {α β : Type}

/-- An action that goes alike on machines that are alike, and takes nothing back that was written. -/
structure Respects (c : Comparison) (x : Exec α) : Prop where
  matching : ∀ {m m'}, c.alike m m' → Matches c.alike c.cut (x m) (x m')
  continues : ∀ m : Machine, m.world.sink.Continues (stateAfter (x m)).world.sink

namespace Respects

theorem pure (a : α) : c.Respects (pure a) :=
  ⟨fun h => .ok h, fun m => .refl m.world.sink⟩

theorem throw (fault : Fault) : c.Respects (throw fault : Exec α) :=
  ⟨fun h => .error h, fun m => .refl m.world.sink⟩

theorem bind {x : Exec α} {f : α → Exec β} (hx : c.Respects x) (hf : ∀ a, c.Respects (f a)) : c.Respects (x >>= f) where
  matching := by
    intro m m' halike
    have hmatch := hx.matching halike
    cases hxm : x m with
    | ok a m₁ =>
      rw [hxm] at hmatch
      cases hxm' : x m' with
      | ok a' m₁' =>
        rw [hxm'] at hmatch
        cases hmatch with
        | ok h =>
          rw [Action.bind_ok hxm, Action.bind_ok hxm']
          exact (hf a).matching h
      | error fault' m₁' =>
        rw [hxm'] at hmatch
        cases hmatch
    | error fault m₁ =>
      rw [hxm] at hmatch
      rw [Action.bind_error hxm]
      cases hxm' : x m' with
      | ok a' m₁' =>
        -- The first machine was cut short, and the second goes on.
        rw [hxm'] at hmatch
        cases hmatch with
        | cut h =>
          rw [Action.bind_ok hxm']
          exact .cut (c.later h ((hf a').continues m₁'))
      | error fault' m₁' =>
        rw [hxm'] at hmatch
        rw [Action.bind_error hxm']
        cases hmatch with
        | error h => exact .error h
        | cut h => exact .cut h
  continues m :=
    stateAfter_bind (P := fun m₁ => m.world.sink.Continues m₁.world.sink) (hx.continues m) fun a m₁ h =>
      h.trans ((hf a).continues m₁)

theorem lift (x : Except Fault α) : c.Respects (Exec.lift x) := by
  cases x with
  | ok a => exact .pure a
  | error fault => exact .throw fault

theorem pop (opcode : Opcode) : c.Respects (Exec.pop opcode) where
  matching := by
    intro m m' h
    obtain ⟨stack', world', limit'⟩ := m'
    obtain rfl : stack' = m.stack := c.stack_eq h
    unfold Exec.pop
    dsimp only
    split
    · rename_i v rest hpop
      exact .ok (c.shrink rest h (Stack.size_le_of_pop? hpop))
    · exact .error h
  continues m := by
    unfold Exec.pop
    split <;> exact .refl m.world.sink

theorem popAs (opcode : Opcode) (kind : Kind) : c.Respects (Exec.popAs opcode kind) := by
  refine (pop opcode).bind fun v => ?_
  cases v.as? kind with
  | none => exact .throw _
  | some data => exact .pure data

theorem take (opcode : Opcode) (count : Nat) : c.Respects (Exec.take opcode count) where
  matching := by
    intro m m' h
    obtain ⟨stack', world', limit'⟩ := m'
    obtain rfl : stack' = m.stack := c.stack_eq h
    unfold Exec.take
    dsimp only
    split
    · exact .ok (c.shrink _ h (Nat.sub_le m.stack.size count))
    · exact .error h
  continues m := by
    unfold Exec.take
    split <;> exact .refl m.world.sink

theorem fetch (name : String) : c.Respects (Exec.act (World.fetch name)) where
  matching := by
    intro m m' h
    unfold Exec.act World.fetch
    dsimp only
    rw [c.store_eq h]
    cases m.world.store.get? name with
    | none => exact .error h
    | some v => exact .ok h
  continues := Exec.continues_act fun w => by
    unfold World.fetch
    cases w.store.get? name <;> exact .refl w.sink

/-- An operation respects what the elementary actions respect that it may consist of. -/
theorem perform (operation : Operation)
    (hpush : ∀ v {m m'}, c.alike m m' → Matches c.alike c.cut (Exec.push v m) (Exec.push v m'))
    (hsave : ∀ kind name v {m m'}, operation = .save kind name → c.alike m m' →
      Matches c.alike c.cut (Exec.act (World.save name v) m) (Exec.act (World.save name v) m'))
    (hprint : ∀ count values {m m'}, operation = .print count → c.alike m m' →
      Matches c.alike c.cut (Exec.act (World.print values) m) (Exec.act (World.print values) m'))
    (hread : ∀ kind {m m'}, operation = .read kind → c.alike m m' →
      Matches c.alike c.cut (Exec.act (World.read kind) m) (Exec.act (World.read kind) m')) :
    c.Respects (Exec.perform operation) := by
  have push : ∀ v, c.Respects (Exec.push v) := fun v => ⟨hpush v, Exec.continues_push v⟩
  cases operation with
  | binary op =>
    exact (popAs _ _).bind fun b => (popAs _ _).bind fun a => (lift _).bind fun result => (push _).bind fun _ => pure _
  | unary op => exact (popAs _ _).bind fun a => (push _).bind fun _ => pure _
  | push v => exact (push v).bind fun _ => pure _
  | pop => exact (pop _).bind fun _ => pure _
  | load kind name =>
    refine (fetch name).bind fun v => ?_
    split
    · exact (push v).bind fun _ => pure _
    · exact (throw _).bind fun _ => pure _
  | save kind name =>
    have save : ∀ v, c.Respects (Exec.act (World.save name v)) := fun v =>
      ⟨hsave kind name v rfl, Exec.continues_act fun w => .refl w.sink⟩
    exact (popAs _ _).bind fun data => (save _).bind fun _ => pure _
  | label => exact pure _
  | jump target => exact pure _
  | branch target =>
    refine (pop _).bind fun v => ?_
    rcases v.truthy? with _ | (_ | _)
    · exact throw _
    · exact pure _
    · exact pure _
  | print count =>
    have print : ∀ values, c.Respects (Exec.act (World.print values)) := fun values =>
      ⟨hprint count values rfl, Exec.continues_act (World.continues_print values)⟩
    exact (take _ _).bind fun values => (print values).bind fun _ => pure _
  | read kind =>
    have read : c.Respects (Exec.act (World.read kind)) :=
      ⟨hread kind rfl, Exec.continues_act fun w => .of_eq (congrArg Sink.written (World.sink_read kind w))⟩
    exact read.bind fun v => (push v).bind fun _ => pure _

end Respects

/-! ### One machine -/

/-- A machine beside itself, as long as something holds of it that does not depend on much being on the stack. -/
def keeping (P : Machine → Prop) (shrink : ∀ {m} (s : Stack), P m → s.size ≤ m.stack.size → P { m with stack := s }) :
    Comparison where
  alike m m' := m' = m ∧ P m
  cut _ _ _ := False
  stack_eq h := congrArg Machine.stack h.1
  store_eq h := congrArg (fun m => m.world.store) h.1
  shrink s h hsize := ⟨by rw [h.1], shrink s h.2 hsize⟩
  later h _ := h

theorem matches_keeping {P : Machine → Prop}
    {shrink : ∀ {m} (s : Stack), P m → s.size ≤ m.stack.size → P { m with stack := s }} {x : Exec α} {m m' : Machine}
    (h : (keeping P shrink).alike m m') (hx : P m → P (stateAfter (x m))) :
    Matches (keeping P shrink).alike (keeping P shrink).cut (x m) (x m') := by
  obtain ⟨rfl, hm⟩ := h
  have hafter := hx hm
  cases hr : x m' with
  | ok a m₁ =>
    rw [hr] at hafter
    exact .ok ⟨rfl, hafter⟩
  | error fault m₁ =>
    rw [hr] at hafter
    exact .error ⟨rfl, hafter⟩

/-- What the elementary actions keep that an operation may consist of, the operation keeps, whether it faults or not. -/
theorem keeps_perform {P : Machine → Prop} {operation : Operation} {m : Machine} (h : P m)
    (shrink : ∀ {m} (s : Stack), P m → s.size ≤ m.stack.size → P { m with stack := s })
    (push : ∀ v m, P m → P (stateAfter (Exec.push v m)))
    (save : ∀ kind name v m, operation = .save kind name → P m → P (stateAfter (Exec.act (World.save name v) m)))
    (print : ∀ count values m, operation = .print count → P m → P (stateAfter (Exec.act (World.print values) m)))
    (read : ∀ kind m, operation = .read kind → P m → P (stateAfter (Exec.act (World.read kind) m))) :
    P (stateAfter (Exec.perform operation m)) := by
  have hrespects : (keeping P shrink).Respects (Exec.perform operation) :=
    .perform operation (fun v _ _ h => matches_keeping h (push v _))
      (fun kind name v _ _ hop h => matches_keeping h (save kind name v _ hop))
      (fun count values _ _ hop h => matches_keeping h (print count values _ hop))
      (fun kind _ _ hop h => matches_keeping h (read kind _ hop))
  have halike : (keeping P shrink).alike m m := ⟨rfl, h⟩
  have hmatch := hrespects.matching halike
  cases hr : Exec.perform operation m with
  | ok flow m₁ =>
    rw [hr] at hmatch
    cases hmatch with
    | ok h => exact h.2
  | error fault m₁ =>
    rw [hr] at hmatch
    cases hmatch with
    | error h => exact h.2
    | cut h => cases h

end Comparison

/-! ### Comparisons of worlds -/

/-- How two worlds are compared, of which the first may be the one of a machine that is cut short. -/
structure WorldComparison where
  alike : World → World → Prop
  cut : Fault → World → World → Prop
  store_eq : ∀ {w w'}, alike w w' → w'.store = w.store
  later : ∀ {fault w w' w''}, cut fault w w' → w'.sink.Continues w''.sink → cut fault w w''

/-- Machines with the same stack, compared by their worlds and their bounds. -/
def WorldComparison.machines (c : WorldComparison) (bounds : Nat → Nat → Prop) : Comparison where
  alike m m' := m'.stack = m.stack ∧ bounds m.limit m'.limit ∧ c.alike m.world m'.world
  cut fault m m' := c.cut fault m.world m'.world
  stack_eq h := h.1
  store_eq h := c.store_eq h.2.2
  shrink _ h _ := ⟨rfl, h.2⟩
  later := c.later

/-! ### Steps and runs -/

/-- What the elementary actions and the end of a run must do for two runs to be compared. -/
structure Comparison.Lawful (c : Comparison) : Prop where
  push : ∀ v {m m'}, c.alike m m' → Matches c.alike c.cut (Exec.push v m) (Exec.push v m')
  save : ∀ name v {m m'}, c.alike m m' →
    Matches c.alike c.cut (Exec.act (World.save name v) m) (Exec.act (World.save name v) m')
  print : ∀ values {m m'}, c.alike m m' →
    Matches c.alike c.cut (Exec.act (World.print values) m) (Exec.act (World.print values) m')
  read : ∀ kind {m m'}, c.alike m m' →
    Matches c.alike c.cut (Exec.act (World.read kind) m) (Exec.act (World.read kind) m')
  finish : ∀ {m m'}, c.alike m m' → m'.finish.outcome = m.finish.outcome ∧ c.alike m.finish.machine m'.finish.machine

/-- What the elementary actions on the world must do for two runs to be compared. -/
structure WorldComparison.Lawful (c : WorldComparison) : Prop where
  save : ∀ name v {w w'}, c.alike w w' → Matches c.alike c.cut (World.save name v w) (World.save name v w')
  print : ∀ values {w w'}, c.alike w w' → Matches c.alike c.cut (World.print values w) (World.print values w')
  read : ∀ kind {w w'}, c.alike w w' → Matches c.alike c.cut (World.read kind w) (World.read kind w')
  finish : ∀ {w w'}, c.alike w w' → Matches c.alike (fun _ _ _ => False) (World.finish w) (World.finish w')

namespace WorldComparison

variable {c : WorldComparison} {bounds : Nat → Nat → Prop} {m m' : Machine} {α : Type}

theorem matches_act {action : Act α} (h : (c.machines bounds).alike m m')
    (hw : Matches c.alike c.cut (action m.world) (action m'.world)) :
    Matches (c.machines bounds).alike (c.machines bounds).cut (Exec.act action m) (Exec.act action m') := by
  obtain ⟨hstack, hbounds, -⟩ := h
  rw [Exec.act, Exec.act]
  generalize action m.world = result at hw
  generalize action m'.world = result' at hw
  cases hw with
  | ok h => exact .ok ⟨hstack, hbounds, h⟩
  | error h => exact .error ⟨hstack, hbounds, h⟩
  | cut h => cases result' <;> exact .cut h

/-- With equal bounds, a stack is full on both machines or on none. -/
theorem matches_push (v : Value) (h : (c.machines Eq).alike m m') :
    Matches (c.machines Eq).alike (c.machines Eq).cut (Exec.push v m) (Exec.push v m') := by
  have hlimit : m.limit = m'.limit := h.2.1
  unfold Exec.push
  rw [h.1, ← hlimit]
  split
  · exact .ok ⟨rfl, rfl, h.2.2⟩
  · exact .error h

theorem Lawful.machines (hc : c.Lawful)
    (push : ∀ v {m m'}, (c.machines bounds).alike m m' →
      Matches (c.machines bounds).alike (c.machines bounds).cut (Exec.push v m) (Exec.push v m')) :
    (c.machines bounds).Lawful where
  push := push
  save name v _ _ h := matches_act h (hc.save name v h.2.2)
  print values _ _ h := matches_act h (hc.print values h.2.2)
  read kind _ _ h := matches_act h (hc.read kind h.2.2)
  finish := by
    rintro ⟨stack, world, limit⟩ ⟨stack', world', limit'⟩ ⟨rfl, hbounds, hw⟩
    have hfinish := hc.finish hw
    rw [Machine.finish, Machine.finish, Exec.act, Exec.act]
    generalize World.finish world = result at hfinish
    generalize World.finish world' = result' at hfinish
    cases hfinish with
    | ok h => exact ⟨rfl, rfl, hbounds, h⟩
    | error h => exact ⟨rfl, rfl, hbounds, h⟩
    | cut h => cases h

theorem Lawful.machines_eq (hc : c.Lawful) : (c.machines Eq).Lawful :=
  hc.machines fun v _ _ => matches_push v

end WorldComparison

/-- How a step goes on two machines: both times alike, or the first time it is cut short. -/
inductive Comparison.Goes (c : Comparison) : Progress → Progress → Prop where
  | running {k : Nat} {m m' : Machine} (h : c.alike m m') : Goes c (.running k m) (.running k m')
  | finished {m m' : Machine} (h : c.alike m m') : Goes c (.finished m) (.finished m')
  | faulted {fault : Fault} {m m' : Machine} (h : c.alike m m') : Goes c (.faulted fault m) (.faulted fault m')
  | cut {fault : Fault} {m : Machine} {progress : Progress} (h : c.cut fault m progress.machine) :
      Goes c (.faulted fault m) progress

theorem Image.run?_eq_none_iff {image : Image} {fuel i : Nat} {m : Machine} :
    image.run? fuel i m = none ↔ ∃ j m₁, image.Leads fuel i m j m₁ := by
  induction fuel generalizing i m with
  | zero => exact ⟨fun _ => ⟨i, m, .refl i m⟩, fun _ => rfl⟩
  | succ fuel ih =>
    cases hs : image.step i m with
    | running k m₁ =>
      rw [run?_of_running hs, ih]
      constructor
      · rintro ⟨j, m₂, hleads⟩
        exact ⟨j, m₂, .step hs hleads⟩
      · rintro ⟨j, m₂, _ | ⟨first, rest⟩⟩
        cases hs.symm.trans first
        exact ⟨j, m₂, rest⟩
    | finished m₁ =>
      rw [run?_of_finished hs]
      refine ⟨nofun, ?_⟩
      rintro ⟨j, m₂, _ | ⟨first, rest⟩⟩
      cases hs.symm.trans first
    | faulted fault m₁ =>
      rw [run?_of_faulted hs]
      refine ⟨nofun, ?_⟩
      rintro ⟨j, m₂, _ | ⟨first, rest⟩⟩
      cases hs.symm.trans first

/-- A run does not end within its fuel if and only if it makes that many steps. -/
theorem Machine.run?_eq_none_iff {m : Machine} {fuel : Nat} {instructions : List Instruction} :
    m.run? fuel instructions = none ↔ ∃ j m', m.Reaches instructions fuel j m' := by
  unfold run?
  split
  · rename_i fault hlink
    refine ⟨nofun, ?_⟩
    rintro ⟨j, m', image, hlink', -⟩
    cases hlink.symm.trans hlink'
  · rename_i image hlink
    rw [Image.run?_eq_none_iff]
    constructor
    · rintro ⟨j, m', hleads⟩
      exact ⟨j, m', image, hlink, hleads⟩
    · rintro ⟨j, m', image', hlink', hleads⟩
      cases hlink.symm.trans hlink'
      exact ⟨j, m', hleads⟩

/-- A step faults because its instruction cannot be decoded, or by what its operation does. -/
theorem Image.step_eq_faulted {image : Image} {i : Nat} {m m₁ : Machine} {fault : Fault}
    (h : image.step i m = .faulted fault m₁) :
    (image.operations[i]? = some (.error fault) ∧ m₁ = m) ∨
      ∃ operation, image.operations[i]? = some (.ok operation) ∧ Exec.perform operation m = .error fault m₁ := by
  unfold step at h
  split at h
  · cases h
  · rename_i hop
    cases h
    exact .inl ⟨hop, rfl⟩
  · rename_i operation hop
    split at h
    · cases h
    · cases h
    · rename_i hperform
      cases h
      exact .inr ⟨operation, hop, hperform⟩

/-- Closing a run only counts a flush. -/
theorem Machine.machine_finish (m : Machine) :
    m.finish.machine =
      { m with world := { m.world with sink := { m.world.sink with flushes := m.world.sink.flushes + 1 } } } := by
  obtain ⟨stack, ⟨store, input, ⟨written, room, flushError, flushes⟩⟩, limit⟩ := m
  cases flushError <;> rfl

theorem Machine.outcome_finish {m : Machine} (h : m.world.sink.flushError = none) : m.finish.outcome = .ok () := by
  obtain ⟨stack, ⟨store, input, ⟨written, room, flushError, flushes⟩⟩, limit⟩ := m
  obtain rfl : flushError = none := h
  rfl

section

variable {P : Machine → Prop} (hperform : ∀ operation m, P m → P (stateAfter (Exec.perform operation m)))

include hperform

/-- What operations keep, a step keeps. -/
theorem Image.keeps_step (image : Image) (i : Nat) {m : Machine} (h : P m) : P (image.step i m).machine := by
  unfold step
  cases image.operations[i]? with
  | none => exact h
  | some decoded =>
    cases decoded with
    | error fault => exact h
    | ok operation =>
      have hafter := hperform operation m h
      dsimp only
      cases hp : Exec.perform operation m with
      | error fault m₁ => rwa [hp] at hafter
      | ok flow m₁ =>
        rw [hp] at hafter
        cases flow <;> exact hafter

theorem Image.Leads.keeps {image : Image} {n i j : Nat} {m m₁ : Machine} (hl : image.Leads n i m j m₁) (h : P m) :
    P m₁ := by
  induction hl with
  | refl => exact h
  | @step n i j k m m₁ m₂ first _ ih =>
    have hstep := image.keeps_step hperform i h
    rw [first] at hstep
    exact ih hstep

end

/-! ### What is written -/

/-- An operation takes nothing back that was written. -/
theorem Exec.continues_perform (s : Sink) (operation : Operation) (m : Machine) (h : s.Continues m.world.sink) :
    s.Continues (stateAfter (perform operation m)).world.sink := by
  refine Comparison.keeps_perform (P := fun m₁ => s.Continues m₁.world.sink) h (fun _ h _ => h) ?_ ?_ ?_ ?_
  · intro v m₁ h
    exact h.trans (continues_push v m₁)
  · intro kind name v m₁ _ h
    exact h
  · intro count values m₁ _ h
    exact h.trans (continues_act (World.continues_print values) m₁)
  · intro kind m₁ _ h
    rw [stateAfter_act, World.sink_read]
    exact h

/-- What was written by the end of a step is still there at the end of the run. -/
theorem Image.continues_run? {image : Image} {fuel i : Nat} {m : Machine} {halt : Halt}
    (hrun : image.run? fuel i m = some halt) :
    (image.step i m).machine.world.sink.Continues halt.machine.world.sink := by
  obtain ⟨n, j, m₁, hleads, hend⟩ := exists_leads_of_run? hrun
  have hclose : (image.step j m₁).machine.world.sink.Continues halt.machine.world.sink := by
    have hflush : ∀ left : Machine, left.world.sink.Continues left.finish.machine.world.sink := fun left =>
      .of_eq (by rw [left.machine_finish])
    rcases hend with ⟨left, hstep, rfl⟩ | ⟨fault, left, hstep, rfl⟩
    · rw [hstep]
      exact hflush left
    · rw [hstep]
      exact hflush left
  cases hleads with
  | refl => exact hclose
  | step first rest =>
    rw [first]
    have hrest := rest.keeps (Exec.continues_perform _) (.refl _)
    exact (image.keeps_step (Exec.continues_perform _) j hrest).trans hclose

/-- What was written before a run is still there at its end. -/
theorem Machine.continues_run? {m : Machine} {fuel : Nat} {instructions : List Instruction} {halt : Halt}
    (hrun : m.run? fuel instructions = some halt) : m.world.sink.Continues halt.machine.world.sink := by
  unfold run? at hrun
  split at hrun
  · cases hrun
    exact .refl m.world.sink
  · rename_i image _
    have hstep := image.keeps_step (Exec.continues_perform m.world.sink) 0 (.refl m.reset.world.sink)
    exact hstep.trans (Image.continues_run? hrun)

/-- The same holds at every step of a run, whether it will end or not. -/
theorem Machine.Reaches.continues {m m' : Machine} {instructions : List Instruction} {n j : Nat}
    (h : m.Reaches instructions n j m') : m.world.sink.Continues m'.world.sink := by
  obtain ⟨image, -, hleads⟩ := h
  exact hleads.keeps (Exec.continues_perform m.world.sink) (.refl m.reset.world.sink)

namespace Comparison.Lawful

variable {c : Comparison} (hc : c.Lawful) {image : Image} {m m' m₁ : Machine} {n i j fuel : Nat} {halt : Halt}

include hc

theorem perform (operation : Operation) : c.Respects (Exec.perform operation) :=
  .perform operation hc.push (fun _ name v _ _ _ => hc.save name v) (fun _ values _ _ _ => hc.print values)
    (fun kind _ _ _ => hc.read kind)

theorem step (image : Image) (i : Nat) (h : c.alike m m') : c.Goes (image.step i m) (image.step i m') := by
  unfold Image.step
  cases image.operations[i]? with
  | none => exact .finished h
  | some decoded =>
    cases decoded with
    | error fault => exact .faulted h
    | ok operation =>
      have hmatch := (hc.perform operation).matching h
      dsimp only
      generalize Exec.perform operation m = result at hmatch
      generalize Exec.perform operation m' = result' at hmatch
      cases hmatch with
      | ok h => rename_i flow _ _; cases flow <;> exact .running h
      | error h => exact .faulted h
      | cut h =>
        cases result' with
        | error fault' m₁' => exact .cut h
        | ok flow m₁' => cases flow <;> exact .cut h

/-- As long as the first of two runs goes on, so does the second, and at the same place. -/
theorem leads (hl : image.Leads n i m j m₁) (h : c.alike m m') : ∃ m₁', image.Leads n i m' j m₁' ∧ c.alike m₁ m₁' := by
  induction hl generalizing m' with
  | refl i m => exact ⟨m', .refl i m', h⟩
  | @step n i j k m m₁ m₂ first _ ih =>
    have hstep := hc.step image i h
    rw [first] at hstep
    cases hs : image.step i m' with
    | running k' m₁' =>
      rw [hs] at hstep
      cases hstep with
      | running h =>
        obtain ⟨m₂', hrest, h⟩ := ih h
        exact ⟨m₂', .step hs hrest, h⟩
    | finished m₁' =>
      rw [hs] at hstep
      cases hstep
    | faulted fault m₁' =>
      rw [hs] at hstep
      cases hstep

/-! ### Whole runs -/

variable {instructions : List Instruction}

theorem run?_eq_none (h : c.alike m.reset m'.reset) (hrun : m.run? fuel instructions = none) :
    m'.run? fuel instructions = none := by
  obtain ⟨j, m₁, image, hlink, hleads⟩ := Machine.run?_eq_none_iff.mp hrun
  obtain ⟨m₁', hleads', -⟩ := hc.leads hleads h
  exact Machine.run?_eq_none_iff.mpr ⟨j, m₁', image, hlink, hleads'⟩

/-- A run that ends is matched by the other one or cut short. -/
theorem run?_cases (h : c.alike m.reset m'.reset) (hrun : m.run? fuel instructions = some halt) :
    (∃ halt', m'.run? fuel instructions = some halt' ∧ halt'.outcome = halt.outcome ∧
      c.alike halt.machine halt'.machine) ∨
    ∃ fault left m₁', halt = left.abort fault ∧ c.cut fault left m₁' ∧
      ∀ fuel' halt', m'.run? fuel' instructions = some halt' → c.cut fault left halt'.machine := by
  unfold Machine.run? at hrun ⊢
  split at hrun
  · rename_i fault hlink
    cases hrun
    exact .inl ⟨⟨.error fault, m'.reset⟩, rfl, rfl, h⟩
  · rename_i image hlink
    obtain ⟨n, j, m₁, hleads, hend⟩ := Image.exists_leads_of_run? hrun
    obtain ⟨rest, rfl, hrest⟩ := hleads.run?_rest hrun
    obtain ⟨m₁', hleads', h₁⟩ := hc.leads hleads h
    have hgoes := hc.step image j h₁
    obtain ⟨rest, rfl⟩ : ∃ more, rest = more + 1 := by
      cases rest with
      | zero => cases hrest
      | succ more => exact ⟨more, rfl⟩
    rcases hend with ⟨left, hstep, rfl⟩ | ⟨fault, left, hstep, rfl⟩
    · rw [hstep] at hgoes
      cases hs : image.step j m₁' with
      | finished left' =>
        rw [hs] at hgoes
        cases hgoes with
        | finished hleft =>
          obtain ⟨houtcome, halike⟩ := hc.finish hleft
          exact .inl ⟨left'.finish, by rw [hleads'.run?_add, Image.run?_of_finished hs], houtcome, halike⟩
      | running | faulted =>
        rw [hs] at hgoes
        cases hgoes
    · rw [hstep] at hgoes
      generalize hs : image.step j m₁' = progress at hgoes
      cases hgoes with
      | faulted hleft =>
        rename_i left'
        obtain ⟨-, halike⟩ := hc.finish hleft
        exact .inl ⟨left'.abort fault, by rw [hleads'.run?_add, Image.run?_of_faulted hs], rfl, halike⟩
      | cut hcut =>
        refine .inr ⟨fault, left, progress.machine, rfl, hcut, fun fuel' halt' hrun' => ?_⟩
        obtain ⟨rest', rfl, hrest'⟩ := hleads'.run?_rest hrun'
        exact c.later hcut (hs ▸ Image.continues_run? hrest')

end Comparison.Lawful

end StackMachine
