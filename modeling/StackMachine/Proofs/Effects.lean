import StackMachine.Proofs.Actions

/-! What one operation does.

An operation takes values off the stack and then puts at most one there. `Operation.Effect` says what it leaves when it
succeeds, and `Operation.Raises` which faults it may end with and when. -/

namespace StackMachine

/-! ### Counts of values -/

namespace Opcode

/-- How many values an operation takes off the stack, if its operand does not say. -/
def pops : Opcode → Nat
  | .add | .sub | .mul | .div | .mod | .concat | .and | .or | .gt | .lt | .ge | .le | .eq => 2
  | .uminus | .not | .itof | .pop | .save | .fjmp => 1
  | .push | .load | .label | .jmp | .print | .read => 0

/-- How many values an operation puts on the stack. -/
def pushes : Opcode → Nat
  | .pop | .save | .label | .jmp | .fjmp | .print => 0
  | _ => 1

end Opcode

namespace Operation

def opcode : Operation → Opcode
  | .binary op => op.opcode
  | .unary op => op.opcode
  | .push _ => .push
  | .pop => .pop
  | .load _ _ => .load
  | .save _ _ => .save
  | .label => .label
  | .jump _ => .jmp
  | .branch _ => .fjmp
  | .print _ => .print
  | .read _ => .read

/-- How many values the operation takes off the stack. -/
def pops : Operation → Nat
  | .print count => count
  | operation => operation.opcode.pops

/-- How many values the operation puts on the stack. -/
def pushes (operation : Operation) : Nat :=
  operation.opcode.pushes

/-- Where the operation may go on other than at the next one. -/
def target? : Operation → Option Nat
  | .jump target | .branch target => some target
  | _ => none

/-- The variable that the operation gives a value. -/
def saves? : Operation → Option String
  | .save _ name => some name
  | _ => none

@[simp] theorem pops_binary (op : Binary) : (binary op).pops = 2 := by
  cases op with
  | arithmetic op => cases op <;> rfl
  | logical op => cases op <;> rfl
  | compare relation => cases relation <;> rfl
  | mod | concat | equal => rfl

@[simp] theorem pushes_binary (op : Binary) : (binary op).pushes = 1 := by
  cases op with
  | arithmetic op => cases op <;> rfl
  | logical op => cases op <;> rfl
  | compare relation => cases relation <;> rfl
  | mod | concat | equal => rfl

@[simp] theorem pops_unary (op : Unary) : (unary op).pops = 1 := by
  cases op <;> rfl

@[simp] theorem pushes_unary (op : Unary) : (unary op).pushes = 1 := by
  cases op <;> rfl

/-! ### Results of operations -/

/-- What an operation leaves behind when it succeeds. -/
structure Effect (operation : Operation) (m : Machine) (flow : Flow) (m' : Machine) : Prop where
  enough : operation.pops ≤ m.stack.size
  size_eq : m'.stack.size = m.stack.size - operation.pops + operation.pushes
  limit_eq : m'.limit = m.limit
  defined : ∀ name, (m'.world.store.get? name).isSome ↔ operation.saves? = some name ∨ (m.world.store.get? name).isSome
  flow : flow = .next ∨ ∃ target, operation.target? = some target ∧ flow = .goto target

/-- The effect of an operation that saves nothing. -/
theorem Effect.of_store_eq {operation : Operation} {m m' : Machine} {flow : Flow} (hsaves : operation.saves? = none)
    (enough : operation.pops ≤ m.stack.size)
    (size_eq : m'.stack.size = m.stack.size - operation.pops + operation.pushes) (limit_eq : m'.limit = m.limit)
    (hstore : m'.world.store = m.world.store)
    (hflow : flow = .next ∨ ∃ target, operation.target? = some target ∧ flow = .goto target) :
    operation.Effect m flow m' where
  enough := enough
  size_eq := size_eq
  limit_eq := limit_eq
  defined := by simp [hsaves, hstore]
  flow := hflow

/-- The faults that an operation may end with, and what holds of the machine then. -/
inductive Raises (m : Machine) : Operation → Fault → Prop where
  | stackUnderflow {operation : Operation} (opcode : Opcode) (short : m.stack.size < operation.pops) :
      Raises m operation (.stackUnderflow opcode)
  | stackOverflow {operation : Operation} (full : m.limit < m.stack.size - operation.pops + operation.pushes) :
      Raises m operation (.stackOverflow m.limit)
  | typeMismatch {operation : Operation} (opcode : Opcode) (expected found : Kind) :
      Raises m operation (.typeMismatch opcode expected found)
  | divisionByZero (op : Binary) : Raises m (.binary op) .divisionByZero
  | undefinedVariable (kind : Kind) {name : String} (undefined : m.world.store.get? name = none) :
      Raises m (.load kind name) (.undefinedVariable name)
  | unsupportedOperand (target : Nat) {s : String} {rest : List Value} (top : m.stack.values = .string s :: rest) :
      Raises m (.branch target) (.unsupportedOperand .fjmp .string)
  | endOfInput (kind : Kind) : Raises m (.read kind) .endOfInput
  | invalidInput (kind : Kind) (line : String) : Raises m (.read kind) (.invalidInput kind line)
  | io {operation : Operation} (e : IoError) : Raises m operation (.io e)

end Operation

/-! ### The parts of an operation -/

/-- All that can go wrong with numbers is division by zero. -/
theorem Arithmetic.fault_of_apply {op : Arithmetic} {numeric : Numeric} {x y : numeric.kind.Carrier} {fault : Fault}
    (h : op.apply numeric x y = .error fault) : fault = .divisionByZero := by
  cases numeric <;> cases op <;> simp only [apply, onInt, onFloat] at h
  all_goals first
    | cases h
    | (split at h <;> cases h; rfl)

theorem Binary.fault_of_apply {op : Binary} {x y : op.operand.Carrier} {fault : Fault}
    (h : op.apply x y = .error fault) : fault = .divisionByZero := by
  cases op with
  | arithmetic op numeric => exact Arithmetic.fault_of_apply h
  | mod =>
    simp only [apply] at h
    split at h
    · cases h
      rfl
    · cases h
  | logical op => cases op <;> cases h
  | concat | compare | equal => cases h

theorem Value.eq_string_of_truthy? {v : Value} (h : v.truthy? = none) : ∃ s, v = .string s := by
  cases v with
  | string s => exact ⟨s, rfl⟩
  | int | float | bool => cases h

namespace World

variable {w w' : World} {fault : Fault}

theorem store_of_print {values : List Value} {u : Unit} (h : print values w = .ok u w') : w'.store = w.store := by
  obtain ⟨store, input, sink⟩ := w
  rw [print, write] at h
  cases hwrite : Sink.write (String.join (values.map Value.text) ++ "\n") sink with
  | ok u sink' =>
    rw [hwrite] at h
    cases h
    rfl
  | error e sink' =>
    rw [hwrite] at h
    cases h

theorem fault_of_print {values : List Value} (h : print values w = .error fault w') : ∃ e, fault = .io e := by
  obtain ⟨store, input, sink⟩ := w
  rw [print, write] at h
  cases hwrite : Sink.write (String.join (values.map Value.text) ++ "\n") sink with
  | ok u sink' =>
    rw [hwrite] at h
    cases h
  | error e sink' =>
    rw [hwrite] at h
    cases h
    exact ⟨e, rfl⟩

theorem store_of_read {kind : Kind} {v : Value} (h : read kind w = .ok v w') : w'.store = w.store := by
  obtain ⟨line, w₁, hline, h⟩ := Action.bind_eq_ok.mp h
  have hstore : w₁.store = w.store := by
    unfold readLine at hline
    split at hline
    · cases hline
    · dsimp only at hline
      split at hline <;> cases hline
      rfl
  cases hv : Value.ofLine? kind line with
  | none =>
    rw [hv] at h
    cases h
  | some v' =>
    rw [hv] at h
    cases h
    exact hstore

theorem fault_of_read {kind : Kind} (h : read kind w = .error fault w') :
    fault = .endOfInput ∨ (∃ line, fault = .invalidInput kind line) ∨ ∃ e, fault = .io e := by
  rcases Action.bind_eq_error.mp h with h | ⟨line, w₁, -, h⟩
  · unfold readLine at h
    split at h
    · cases h
      exact .inl rfl
    · dsimp only at h
      split at h <;> cases h
      exact .inr (.inr ⟨_, rfl⟩)
  · cases hv : Value.ofLine? kind line with
    | none =>
      rw [hv] at h
      cases h
      exact .inr (.inl ⟨line, rfl⟩)
    | some v =>
      rw [hv] at h
      cases h

end World

namespace Exec

variable {m m' : Machine} {opcode : Opcode} {kind : Kind} {v : Value} {fault : Fault}

theorem push_eq_ok {u : Unit} (h : push v m = .ok u m') :
    m' = { m with stack := m.stack.push v } := by
  unfold push at h
  split at h <;> cases h
  rfl

theorem push_eq_error (h : push v m = .error fault m') :
    fault = .stackOverflow m.limit ∧ m.limit ≤ m.stack.size ∧ m' = m := by
  unfold push at h
  split at h
  · cases h
  · rename_i hfull
    cases h
    exact ⟨rfl, Nat.le_of_not_lt hfull, rfl⟩

/-- One value is on top of the stack of `m`; `m'` is `m` without it. -/
def Popped (m : Machine) (v : Value) (m' : Machine) : Prop :=
  m.stack.values = v :: m'.stack.values ∧ m' = { m with stack := m'.stack }

theorem Popped.size_eq (h : Popped m v m') : m.stack.size = m'.stack.size + 1 := by
  rw [m.stack.size_eq, m'.stack.size_eq, h.1, List.length_cons]

theorem Popped.enough (h : Popped m v m') : 1 ≤ m.stack.size :=
  Nat.le.intro ((Nat.add_comm 1 _).trans h.size_eq.symm)

theorem Popped.size_eq_sub (h : Popped m v m') : m'.stack.size = m.stack.size - 1 :=
  Nat.eq_sub_of_add_eq h.size_eq.symm

theorem Popped.limit_eq (h : Popped m v m') : m'.limit = m.limit := by
  rw [h.2]

theorem Popped.world_eq (h : Popped m v m') : m'.world = m.world := by
  rw [h.2]

theorem pop_eq_ok (h : pop opcode m = .ok v m') : Popped m v m' := by
  obtain ⟨⟨values, size, hsize⟩, world, limit⟩ := m
  unfold pop at h
  cases values with
  | nil => cases h
  | cons v rest =>
    cases h
    exact ⟨rfl, rfl⟩

theorem pop_eq_error (h : pop opcode m = .error fault m') :
    fault = .stackUnderflow opcode ∧ m.stack.size = 0 ∧ m' = m := by
  obtain ⟨⟨values, size, hsize⟩, world, limit⟩ := m
  unfold pop at h
  cases values with
  | nil =>
    cases h
    exact ⟨rfl, hsize, rfl⟩
  | cons v rest => cases h

theorem popAs_eq_ok {data : kind.Carrier} (h : popAs opcode kind m = .ok data m') : Popped m (.of kind data) m' := by
  obtain ⟨v, m₁, hpop, h⟩ := Action.bind_eq_ok.mp h
  cases hv : v.as? kind with
  | none =>
    rw [hv] at h
    cases h
  | some found =>
    rw [hv] at h
    cases h
    rw [← Value.as?_eq_some_iff.mp hv]
    exact pop_eq_ok hpop

theorem popAs_eq_error (h : popAs opcode kind m = .error fault m') :
    (fault = .stackUnderflow opcode ∧ m.stack.size = 0 ∧ m' = m) ∨
      ∃ v, fault = .typeMismatch opcode kind v.kind ∧ Popped m v m' := by
  rcases Action.bind_eq_error.mp h with h | ⟨v, m₁, hpop, h⟩
  · exact .inl (pop_eq_error h)
  · cases hv : v.as? kind with
    | none =>
      rw [hv] at h
      cases h
      exact .inr ⟨v, rfl, pop_eq_ok hpop⟩
    | some found =>
      rw [hv] at h
      cases h

theorem take_eq_ok {count : Nat} {values : List Value} (h : take opcode count m = .ok values m') :
    count ≤ m.stack.size ∧ m' = { m with stack := m.stack.drop count } := by
  unfold take at h
  split at h
  · rename_i henough
    cases h
    exact ⟨henough, rfl⟩
  · cases h

theorem take_eq_error {count : Nat} (h : take opcode count m = .error fault m') :
    fault = .stackUnderflow opcode ∧ m.stack.size < count ∧ m' = m := by
  unfold take at h
  split at h
  · cases h
  · rename_i hshort
    cases h
    exact ⟨rfl, Nat.lt_of_not_le hshort, rfl⟩

theorem lift_eq_ok_iff {α : Type} {x : Except Fault α} {a : α} : lift x m = .ok a m' ↔ x = .ok a ∧ m' = m := by
  cases x with
  | ok b =>
    show EStateM.Result.ok b m = .ok a m' ↔ _
    simp [eq_comm]
  | error e =>
    show EStateM.Result.error e m = .ok a m' ↔ _
    simp

theorem lift_eq_error_iff {α : Type} {x : Except Fault α} : lift x m = .error fault m' ↔ x = .error fault ∧ m' = m := by
  cases x with
  | ok b =>
    show EStateM.Result.ok b m = .error fault m' ↔ _
    simp
  | error e =>
    show EStateM.Result.error e m = .error fault m' ↔ _
    simp [eq_comm]

theorem act_eq_ok {α : Type} {action : Act α} {a : α} (h : act action m = .ok a m') :
    ∃ w, action m.world = .ok a w ∧ m' = { m with world := w } := by
  obtain ⟨stack, world, limit⟩ := m
  rw [act] at h
  cases hact : action world with
  | ok b w =>
    rw [hact] at h
    cases h
    exact ⟨w, rfl, rfl⟩
  | error e w =>
    rw [hact] at h
    cases h

theorem act_eq_error {α : Type} {action : Act α} (h : act action m = .error fault m') :
    ∃ w, action m.world = .error fault w ∧ m' = { m with world := w } := by
  obtain ⟨stack, world, limit⟩ := m
  rw [act] at h
  cases hact : action world with
  | ok b w =>
    rw [hact] at h
    cases h
  | error e w =>
    rw [hact] at h
    cases h
    exact ⟨w, rfl, rfl⟩

/-! ### Whole operations -/

variable {operation : Operation} {flow : Flow}

theorem perform_eq_ok (h : perform operation m = .ok flow m') : operation.Effect m flow m' := by
  cases operation with
  | binary op =>
    obtain ⟨b, m₁, hb, h⟩ := Action.bind_eq_ok.mp h
    obtain ⟨a, m₂, ha, h⟩ := Action.bind_eq_ok.mp h
    obtain ⟨result, m₃, hresult, h⟩ := Action.bind_eq_ok.mp h
    obtain ⟨u, m₄, hpush, h⟩ := Action.bind_eq_ok.mp h
    cases h
    obtain ⟨-, rfl⟩ := lift_eq_ok_iff.mp hresult
    obtain rfl := push_eq_ok hpush
    have hb := popAs_eq_ok hb
    have ha := popAs_eq_ok ha
    have hsize : m.stack.size = m₃.stack.size + 2 := by rw [hb.size_eq, ha.size_eq]
    refine .of_store_eq rfl ?_ ?_ ?_ ?_ (.inl rfl)
    · simp [hsize]
    · simp [hsize, Stack.push]
    · exact ha.limit_eq.trans hb.limit_eq
    · exact congrArg World.store (ha.world_eq.trans hb.world_eq)
  | unary op =>
    obtain ⟨a, m₁, ha, h⟩ := Action.bind_eq_ok.mp h
    obtain ⟨u, m₂, hpush, h⟩ := Action.bind_eq_ok.mp h
    cases h
    obtain rfl := push_eq_ok hpush
    have ha := popAs_eq_ok ha
    refine .of_store_eq rfl ?_ ?_ ha.limit_eq (congrArg World.store ha.world_eq) (.inl rfl)
    · simp [ha.size_eq]
    · simp [ha.size_eq, Stack.push]
  | push v =>
    obtain ⟨u, m₁, hpush, h⟩ := Action.bind_eq_ok.mp h
    cases h
    obtain rfl := push_eq_ok hpush
    exact .of_store_eq rfl (Nat.zero_le _) rfl rfl rfl (.inl rfl)
  | pop =>
    obtain ⟨v, m₁, hpop, h⟩ := Action.bind_eq_ok.mp h
    cases h
    have hpop := pop_eq_ok hpop
    exact .of_store_eq rfl hpop.enough hpop.size_eq_sub hpop.limit_eq (congrArg World.store hpop.world_eq) (.inl rfl)
  | load kind name =>
    obtain ⟨v, m₁, hfetch, h⟩ := Action.bind_eq_ok.mp h
    obtain ⟨w, hw, rfl⟩ := act_eq_ok hfetch
    obtain rfl : w = m.world := by
      unfold World.fetch at hw
      split at hw <;> cases hw
      rfl
    split at h
    · obtain ⟨u, m₂, hpush, h⟩ := Action.bind_eq_ok.mp h
      cases h
      obtain rfl := push_eq_ok hpush
      exact .of_store_eq rfl (Nat.zero_le _) rfl rfl rfl (.inl rfl)
    · obtain ⟨u, m₂, hthrow, -⟩ := Action.bind_eq_ok.mp h
      cases hthrow
  | save kind name =>
    obtain ⟨data, m₁, hpop, h⟩ := Action.bind_eq_ok.mp h
    obtain ⟨u, m₂, hsave, h⟩ := Action.bind_eq_ok.mp h
    cases h
    have hpop := popAs_eq_ok hpop
    obtain ⟨w, hw, rfl⟩ := act_eq_ok hsave
    cases hw
    refine ⟨hpop.enough, hpop.size_eq_sub, hpop.limit_eq, fun other => ?_, .inl rfl⟩
    rw [hpop.world_eq]
    by_cases hname : other = name
    · simp [hname, Operation.saves?]
    · simp [hname, Ne.symm hname, Operation.saves?]
  | label =>
    cases h
    exact .of_store_eq rfl (Nat.zero_le _) rfl rfl rfl (.inl rfl)
  | jump target =>
    cases h
    exact .of_store_eq rfl (Nat.zero_le _) rfl rfl rfl (.inr ⟨target, rfl, rfl⟩)
  | branch target =>
    obtain ⟨v, m₁, hpop, h⟩ := Action.bind_eq_ok.mp h
    have hpop := pop_eq_ok hpop
    have hworld := congrArg World.store hpop.world_eq
    cases hv : v.truthy? with
    | none =>
      rw [hv] at h
      cases h
    | some yes =>
      rw [hv] at h
      cases yes with
      | true =>
        cases h
        exact .of_store_eq rfl hpop.enough hpop.size_eq_sub hpop.limit_eq hworld (.inl rfl)
      | false =>
        cases h
        exact .of_store_eq rfl hpop.enough hpop.size_eq_sub hpop.limit_eq hworld (.inr ⟨target, rfl, rfl⟩)
  | print count =>
    obtain ⟨values, m₁, htake, h⟩ := Action.bind_eq_ok.mp h
    obtain ⟨u, m₂, hprint, h⟩ := Action.bind_eq_ok.mp h
    cases h
    obtain ⟨henough, rfl⟩ := take_eq_ok htake
    obtain ⟨w, hw, rfl⟩ := act_eq_ok hprint
    exact .of_store_eq rfl henough rfl rfl (World.store_of_print hw) (.inl rfl)
  | read kind =>
    obtain ⟨v, m₁, hread, h⟩ := Action.bind_eq_ok.mp h
    obtain ⟨u, m₂, hpush, h⟩ := Action.bind_eq_ok.mp h
    cases h
    obtain ⟨w, hw, rfl⟩ := act_eq_ok hread
    obtain rfl := push_eq_ok hpush
    exact .of_store_eq rfl (Nat.zero_le _) rfl rfl (World.store_of_read hw) (.inl rfl)

/-- The first thing that an operation does may be to pop a value. -/
theorem raises_of_popAs (hpops : 0 < operation.pops) (h : popAs opcode kind m = .error fault m') :
    operation.Raises m fault := by
  rcases popAs_eq_error h with ⟨rfl, hempty, -⟩ | ⟨v, rfl, -⟩
  · exact .stackUnderflow opcode (by rwa [hempty])
  · exact .typeMismatch opcode kind v.kind

/-- The last thing that an operation does may be to push a value. -/
theorem raises_of_push {m₁ : Machine} (h : push v m₁ = .error fault m')
    (hsize : m₁.stack.size = m.stack.size - operation.pops) (hpushes : operation.pushes = 1)
    (hlimit : m₁.limit = m.limit) : operation.Raises m fault := by
  obtain ⟨rfl, hfull, -⟩ := push_eq_error h
  rw [hlimit] at hfull ⊢
  exact .stackOverflow (by rw [hpushes, ← hsize]; exact Nat.lt_succ_of_le hfull)

theorem perform_eq_error (h : perform operation m = .error fault m') : operation.Raises m fault := by
  cases operation with
  | binary op =>
    have hpops := Operation.pops_binary op
    rcases Action.bind_eq_error.mp h with h | ⟨b, m₁, hb, h⟩
    · exact raises_of_popAs (hpops ▸ Nat.two_pos) h
    have hb := popAs_eq_ok hb
    rcases Action.bind_eq_error.mp h with h | ⟨a, m₂, ha, h⟩
    · rcases popAs_eq_error h with ⟨rfl, hempty, -⟩ | ⟨v, rfl, -⟩
      · exact .stackUnderflow _ (by rw [hb.size_eq, hempty, hpops]; exact Nat.one_lt_two)
      · exact .typeMismatch _ _ v.kind
    have ha := popAs_eq_ok ha
    rcases Action.bind_eq_error.mp h with h | ⟨result, m₃, hresult, hpush⟩
    · obtain rfl := Binary.fault_of_apply (lift_eq_error_iff.mp h).1
      exact .divisionByZero op
    obtain ⟨-, rfl⟩ := lift_eq_ok_iff.mp hresult
    rcases Action.bind_eq_error.mp hpush with hpush | ⟨u, m₄, -, h⟩
    · refine raises_of_push hpush ?_ (Operation.pushes_binary op) (ha.limit_eq.trans hb.limit_eq)
      rw [hpops, hb.size_eq, ha.size_eq]
      rfl
    · cases h
  | unary op =>
    have hpops := Operation.pops_unary op
    rcases Action.bind_eq_error.mp h with h | ⟨a, m₁, ha, h⟩
    · exact raises_of_popAs (hpops ▸ Nat.one_pos) h
    have ha := popAs_eq_ok ha
    rcases Action.bind_eq_error.mp h with h | ⟨u, m₂, -, h⟩
    · exact raises_of_push h (hpops ▸ ha.size_eq_sub) (Operation.pushes_unary op) ha.limit_eq
    · cases h
  | push v =>
    rcases Action.bind_eq_error.mp h with h | ⟨u, m₁, -, h⟩
    · exact raises_of_push h rfl rfl rfl
    · cases h
  | pop =>
    rcases Action.bind_eq_error.mp h with h | ⟨v, m₁, -, h⟩
    · obtain ⟨rfl, hempty, -⟩ := pop_eq_error h
      exact .stackUnderflow _ (hempty ▸ Nat.one_pos)
    · cases h
  | load kind name =>
    rcases Action.bind_eq_error.mp h with h | ⟨v, m₁, hfetch, h⟩
    · obtain ⟨w, hw, -⟩ := act_eq_error h
      unfold World.fetch at hw
      split at hw <;> cases hw
      exact .undefinedVariable kind ‹_›
    obtain ⟨w, -, rfl⟩ := act_eq_ok hfetch
    split at h
    · rcases Action.bind_eq_error.mp h with h | ⟨u, m₂, -, h⟩
      · exact raises_of_push h rfl rfl rfl
      · cases h
    · rcases Action.bind_eq_error.mp h with h | ⟨u, m₂, -, h⟩
      · cases h
        exact .typeMismatch _ _ _
      · cases h
  | save kind name =>
    rcases Action.bind_eq_error.mp h with h | ⟨data, m₁, -, h⟩
    · exact raises_of_popAs Nat.one_pos h
    rcases Action.bind_eq_error.mp h with h | ⟨u, m₂, -, h⟩
    · obtain ⟨w, hw, -⟩ := act_eq_error h
      cases hw
    · cases h
  | label => cases h
  | jump target => cases h
  | branch target =>
    rcases Action.bind_eq_error.mp h with h | ⟨v, m₁, hpop, h⟩
    · obtain ⟨rfl, hempty, -⟩ := pop_eq_error h
      exact .stackUnderflow _ (hempty ▸ Nat.one_pos)
    have htop := (pop_eq_ok hpop).1
    cases hv : v.truthy? with
    | none =>
      obtain ⟨s, rfl⟩ := Value.eq_string_of_truthy? hv
      cases h
      exact .unsupportedOperand target htop
    | some yes =>
      rw [hv] at h
      cases yes <;> cases h
  | print count =>
    rcases Action.bind_eq_error.mp h with h | ⟨values, m₁, -, h⟩
    · obtain ⟨rfl, hshort, -⟩ := take_eq_error h
      exact .stackUnderflow _ hshort
    rcases Action.bind_eq_error.mp h with h | ⟨u, m₂, -, h⟩
    · obtain ⟨w, hw, -⟩ := act_eq_error h
      obtain ⟨e, rfl⟩ := World.fault_of_print hw
      exact .io e
    · cases h
  | read kind =>
    rcases Action.bind_eq_error.mp h with h | ⟨v, m₁, hread, h⟩
    · obtain ⟨w, hw, -⟩ := act_eq_error h
      rcases World.fault_of_read hw with rfl | ⟨line, rfl⟩ | ⟨e, rfl⟩
      · exact .endOfInput kind
      · exact .invalidInput kind line
      · exact .io e
    obtain ⟨w, -, rfl⟩ := act_eq_ok hread
    rcases Action.bind_eq_error.mp h with h | ⟨u, m₂, -, h⟩
    · exact raises_of_push h rfl rfl rfl
    · cases h

end Exec

end StackMachine
