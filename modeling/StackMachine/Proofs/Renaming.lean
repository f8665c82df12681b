import Mathlib.Data.Set.Operations
import StackMachine.Proofs.Comparison
import StackMachine.Proofs.Generated

/-! Names do not matter.

A `Renaming` has new names for variables and, apart from these, for labels. What is required of it is only that it keeps
names apart that occur in the code. Then labels are found at the same indices, every operation does to the renamed
machine what it did to the machine before (`Exec.Mirrors`), and so does a run. Main statement:
`Machine.run_up_to_renaming`. -/

namespace StackMachine

/-- New names for variables and for labels. A variable and a label of one name need not stay of one name. -/
structure Renaming where
  onVariable : String → String
  onLabel : String → String

/-! ### Entries under names -/

section

variable {α : Type} {f : String → String} {names : Set String} {entries : List (String × α)} {name other : String}
  {v : α}

/-- Entries all of which stand under some of the names. -/
def Keyed (names : Set String) (entries : List (String × α)) : Prop :=
  ∀ entry ∈ entries, entry.1 ∈ names

def renameKeys (f : String → String) (entries : List (String × α)) : List (String × α) :=
  entries.map (Prod.map f id)

@[simp] theorem renameKeys_nil (f : String → String) : renameKeys f ([] : List (String × α)) = [] := rfl

@[simp] theorem renameKeys_cons (f : String → String) (name : String) (v : α) (entries : List (String × α)) :
    renameKeys f ((name, v) :: entries) = (f name, v) :: renameKeys f entries := rfl

theorem Keyed.tail {entry : String × α} (h : Keyed names (entry :: entries)) : Keyed names entries :=
  fun e he => h e (List.mem_cons_of_mem _ he)

/-- What stands under a name stands under the new name. -/
theorem lookup_renameKeys (hf : Set.InjOn f names) (hkeys : Keyed names entries) (hname : name ∈ names) :
    (renameKeys f entries).lookup (f name) = entries.lookup name := by
  induction entries with
  | nil => rfl
  | cons entry rest ih =>
    obtain ⟨key, w⟩ := entry
    have heq : (f name == f key) = (name == key) := by
      rw [Bool.eq_iff_iff, beq_iff_eq, beq_iff_eq]
      exact hf.eq_iff hname (hkeys (key, w) List.mem_cons_self)
    rw [renameKeys_cons, List.lookup_cons, List.lookup_cons, heq, ih hkeys.tail]

/-- Nothing stands under other names than the new ones. -/
theorem lookup_renameKeys_eq_some (hf : Set.InjOn f names) (hkeys : Keyed names entries) :
    (renameKeys f entries).lookup other = some v ↔ ∃ name, f name = other ∧ entries.lookup name = some v := by
  constructor
  · intro h
    obtain ⟨entry, hentry, heq⟩ := List.mem_map.mp (mem_of_lookup h)
    obtain rfl : f entry.1 = other := congrArg Prod.fst heq
    exact ⟨entry.1, rfl, by rwa [lookup_renameKeys hf hkeys (hkeys entry hentry)] at h⟩
  · rintro ⟨name, rfl, h⟩
    rw [lookup_renameKeys hf hkeys (hkeys (name, v) (mem_of_lookup h)), h]

end

namespace Store

variable {f : String → String} {names : Set String} {entries : List (String × Value)} {name : String}

theorem keyed_put (hkeys : Keyed names entries) (hname : name ∈ names) (v : Value) :
    Keyed names (put name v entries) := by
  induction entries with
  | nil =>
    intro entry hentry
    obtain rfl := List.mem_singleton.mp hentry
    exact hname
  | cons entry rest ih =>
    rw [put]
    intro other hother
    split at hother
    · rcases List.mem_cons.mp hother with rfl | hother
      · exact hname
      · exact hkeys.tail other hother
    · rcases List.mem_cons.mp hother with rfl | hother
      · exact hkeys other List.mem_cons_self
      · exact ih hkeys.tail other hother

theorem put_renameKeys (hf : Set.InjOn f names) (hkeys : Keyed names entries) (hname : name ∈ names) (v : Value) :
    put (f name) v (renameKeys f entries) = renameKeys f (put name v entries) := by
  induction entries with
  | nil => rfl
  | cons entry rest ih =>
    obtain ⟨key, w⟩ := entry
    have hiff : f key = f name ↔ key = name := hf.eq_iff (hkeys (key, w) List.mem_cons_self) hname
    rw [renameKeys_cons, put, put]
    dsimp only
    by_cases heq : key = name
    · rw [if_pos heq, if_pos (hiff.mpr heq), renameKeys_cons]
    · rw [if_neg heq, if_neg fun h => heq (hiff.mp h), renameKeys_cons, ih hkeys.tail]

end Store

/-! ### Renamed code and renamed machines -/

/-- Of all faults three name a variable or a label. -/
def Fault.rename (r : Renaming) : Fault → Fault
  | .undefinedVariable name => .undefinedVariable (r.onVariable name)
  | .undefinedLabel label => .undefinedLabel (r.onLabel label)
  | .duplicateLabel label first second => .duplicateLabel (r.onLabel label) first second
  | fault => fault

theorem Fault.rename_of_ofDecoding (r : Renaming) {fault : Fault} (h : fault.OfDecoding) : fault.rename r = fault := by
  cases fault with
  | undefinedVariable | undefinedLabel | duplicateLabel => cases h
  | _ => rfl

namespace Instruction

def rename (r : Renaming) (i : Instruction) : Instruction :=
  match i.opcode.shape with
  | .variable => { i with operand := i.operand.map r.onVariable }
  | .label => { i with operand := i.operand.map r.onLabel }
  | .absent | .literal | .count => i

/-- The label that an instruction is or jumps to. -/
def placeName? (i : Instruction) : Option String :=
  if i.opcode.shape = .label then i.operand else none

end Instruction

/-- The variables that occur in code. -/
def variablesOf (instructions : List Instruction) : Set String :=
  {name | ∃ i ∈ instructions, i.variableName? = some name}

/-- The labels that occur in code, also those that are only jumped to. -/
def placesOf (instructions : List Instruction) : Set String :=
  {name | ∃ i ∈ instructions, i.placeName? = some name}

def Operation.rename (r : Renaming) : Operation → Operation
  | .load kind name => .load kind (r.onVariable name)
  | .save kind name => .save kind (r.onVariable name)
  | operation => operation

theorem Operation.rename_of_opcode {r : Renaming} {operation : Operation} (h : operation.opcode.shape ≠ .variable) :
    operation.rename r = operation := by
  cases operation with
  | load | save => exact absurd rfl h
  | _ => rfl

def Image.rename (r : Renaming) (image : Image) : Image :=
  ⟨image.operations.map (Except.map (Operation.rename r))⟩

def Store.rename (r : Renaming) (store : Store) : Store :=
  ⟨renameKeys r.onVariable store.entries⟩

def World.rename (r : Renaming) (w : World) : World :=
  { w with store := w.store.rename r }

def Machine.rename (r : Renaming) (m : Machine) : Machine :=
  { m with world := m.world.rename r }

def Halt.rename (r : Renaming) (halt : Halt) : Halt :=
  ⟨halt.outcome.mapError (Fault.rename r), halt.machine.rename r⟩

namespace Instruction

variable {r : Renaming} {i : Instruction} {target : Option Nat}

@[simp] theorem opcode_rename (r : Renaming) (i : Instruction) : (i.rename r).opcode = i.opcode := by
  unfold rename
  split <;> rfl

theorem rename_of_place (h : i.opcode.shape = .label) : i.rename r = { i with operand := i.operand.map r.onLabel } := by
  rw [rename, h]

theorem rename_of_variable (h : i.opcode.shape = .variable) :
    i.rename r = { i with operand := i.operand.map r.onVariable } := by
  rw [rename, h]

theorem rename_of_other (h : i.opcode.shape ≠ .label) (h' : i.opcode.shape ≠ .variable) : i.rename r = i := by
  unfold rename
  split
  · rename_i hshape
    exact absurd hshape h'
  · rename_i hshape
    exact absurd hshape h
  all_goals rfl

/-- What a label is called does not matter once its index is known. -/
theorem decode_of_place (h : i.opcode.shape = .label) (operand : Option String) :
    decode { i with operand := operand } target = i.decode target := by
  obtain ⟨opcode, kind, operand'⟩ := i
  cases opcode
  case label | jmp | fjmp => cases target <;> rfl
  all_goals cases h

theorem decode_rename (r : Renaming) (i : Instruction) (target : Option Nat) :
    (i.rename r).decode target = (i.decode target).map (Operation.rename r) := by
  by_cases hvariable : i.opcode.shape = .variable
  · obtain ⟨opcode, kind, operand⟩ := i
    rw [rename_of_variable hvariable]
    cases opcode
    case load | save => cases kind <;> cases operand <;> rfl
    all_goals cases hvariable
  · have hdecode : (i.rename r).decode target = i.decode target := by
      by_cases hplace : i.opcode.shape = .label
      · rw [rename_of_place hplace, decode_of_place hplace]
      · rw [rename_of_other hplace hvariable]
    rw [hdecode]
    cases hd : i.decode target with
    | error fault => rfl
    | ok operation =>
      rw [← opcode_of_decode hd] at hvariable
      rw [Except.map, Operation.rename_of_opcode hvariable]

end Instruction

/-! ### Labels -/

namespace Labels

variable {r : Renaming} {names : Set String} {labels : Labels} {i : Instruction}
  {instructions : List Instruction}

/-- Labels are collected under their new names, or what is wrong is told with the new name. -/
theorem collect_rename (index : Nat) (hr : Set.InjOn r.onLabel names) (hlabels : Keyed names labels)
    (hnames : placesOf instructions ⊆ names) :
    (∃ labels', collect labels index instructions = .ok labels' ∧ Keyed names labels' ∧
      collect (renameKeys r.onLabel labels) index (instructions.map (Instruction.rename r)) =
        .ok (renameKeys r.onLabel labels')) ∨
    ∃ fault, collect labels index instructions = .error fault ∧
      collect (renameKeys r.onLabel labels) index (instructions.map (Instruction.rename r)) =
        .error (fault.rename r) := by
  induction instructions generalizing labels index with
  | nil => exact .inl ⟨labels, rfl, hlabels, rfl⟩
  | cons i rest ih =>
    have hrest : placesOf rest ⊆ names := fun name ⟨i, hi, hname⟩ => hnames ⟨i, List.mem_cons_of_mem _ hi, hname⟩
    rw [List.map_cons, collect, collect, Instruction.opcode_rename]
    by_cases hlabel : i.opcode = .label
    · have hshape : i.opcode.shape = .label := by
        rw [hlabel]
        rfl
      rw [if_pos hlabel, if_pos hlabel, Instruction.rename_of_place hshape]
      cases hname : i.operand with
      | none => exact .inr ⟨_, rfl, rfl⟩
      | some name =>
        have hmem : name ∈ names := hnames ⟨i, List.mem_cons_self, by rw [Instruction.placeName?, if_pos hshape, hname]⟩
        dsimp only [Option.map_some]
        rw [lookup_renameKeys hr hlabels hmem]
        cases labels.lookup name with
        | some first => exact .inr ⟨_, rfl, rfl⟩
        | none =>
          have hkeyed : Keyed names ((name, index) :: labels) := by
            intro entry hentry
            rcases List.mem_cons.mp hentry with rfl | hentry
            · exact hmem
            · exact hlabels entry hentry
          exact ih (index + 1) hkeyed hrest
    · rw [if_neg hlabel, if_neg hlabel]
      exact ih (index + 1) hlabels hrest

/-- A jump goes where it went before. -/
theorem target_rename (hr : Set.InjOn r.onLabel names) (hlabels : Keyed names labels)
    (hname : ∀ name, i.placeName? = some name → name ∈ names) :
    target (renameKeys r.onLabel labels) (i.rename r) = (labels.target i).mapError (Fault.rename r) := by
  rw [target, target, Instruction.opcode_rename]
  by_cases hjump : i.opcode.isJump = true
  · have hshape : i.opcode.shape = .label := by
      cases hop : i.opcode <;> rw [hop] at hjump <;> first | rfl | cases hjump
    rw [if_pos hjump, if_pos hjump, Instruction.rename_of_place hshape]
    cases hoperand : i.operand with
    | none => rfl
    | some name =>
      have hmem := hname name (by rw [Instruction.placeName?, if_pos hshape, hoperand])
      dsimp only [Option.map_some]
      rw [lookup_renameKeys hr hlabels hmem]
      cases labels.lookup name <;> rfl
  · rw [if_neg hjump, if_neg hjump]
    rfl

theorem targets_rename (hr : Set.InjOn r.onLabel names) (hlabels : Keyed names labels)
    (hnames : placesOf instructions ⊆ names) :
    targets (renameKeys r.onLabel labels) (instructions.map (Instruction.rename r)) =
      (labels.targets instructions).mapError (Fault.rename r) := by
  induction instructions with
  | nil => rfl
  | cons i rest ih =>
    have hfirst := target_rename hr hlabels fun name hname => hnames ⟨i, List.mem_cons_self, hname⟩
    have hrest := ih fun name ⟨i, hi, hname⟩ => hnames ⟨i, List.mem_cons_of_mem _ hi, hname⟩
    rw [List.map_cons, targets, targets, hfirst, hrest]
    cases labels.target i with
    | error fault => rfl
    | ok index => cases labels.targets rest <;> rfl

end Labels

theorem jumpTable_rename {r : Renaming} {instructions : List Instruction}
    (hr : Set.InjOn r.onLabel (placesOf instructions)) :
    jumpTable (instructions.map (Instruction.rename r)) = (jumpTable instructions).mapError (Fault.rename r) := by
  have hnil : Keyed (placesOf instructions) ([] : Labels) := nofun
  rw [jumpTable, jumpTable]
  rcases Labels.collect_rename 0 hr hnil Set.Subset.rfl with ⟨labels, hok, hkeyed, hok'⟩ | ⟨fault, herror, herror'⟩
  · rw [renameKeys_nil] at hok'
    rw [Except.bind_ok hok, Except.bind_ok hok', Labels.targets_rename hr hkeyed Set.Subset.rfl]
  · rw [renameKeys_nil] at herror'
    rw [Except.bind_error herror, Except.bind_error herror']
    rfl

theorem Image.link_rename {r : Renaming} {instructions : List Instruction}
    (hr : Set.InjOn r.onLabel (placesOf instructions)) :
    link (instructions.map (Instruction.rename r)) =
      ((link instructions).map (Image.rename r)).mapError (Fault.rename r) := by
  rw [link, link, jumpTable_rename hr]
  cases htable : jumpTable instructions with
  | error fault => rfl
  | ok table =>
    have hdecode : (instructions.map (Instruction.rename r)).zipWith Instruction.decode table =
        (instructions.zipWith Instruction.decode table).map (Except.map (Operation.rename r)) := by
      rw [List.zipWith_map_left, List.map_zipWith]
      simp only [Instruction.decode_rename]
    show Except.ok _ = Except.ok _
    rw [hdecode, Image.rename, List.map_toArray]

/-! ### Operations -/

theorem Instruction.variableName?_of_decode {i : Instruction} {target : Option Nat} {operation : Operation}
    (h : i.decode target = .ok operation) {kind : Kind} {name : String}
    (hop : operation = .load kind name ∨ operation = .save kind name) : i.variableName? = some name := by
  have hopcode := opcode_of_decode h
  obtain ⟨opcode, kind', operand⟩ := i
  rcases hop with rfl | rfl
  all_goals
    obtain rfl : _ = opcode := hopcode
    cases kind' <;> cases operand <;> cases h
    rfl

namespace Exec

/-- How an action ends beside the same under other names. -/
inductive Mirrored {α : Type} (r : Renaming) (names : Set String) :
    EStateM.Result Fault Machine α → EStateM.Result Fault Machine α → Prop where
  | ok (a : α) {m : Machine} (h : Keyed names m.world.store.entries) : Mirrored r names (.ok a m) (.ok a (m.rename r))
  | error (fault : Fault) {m : Machine} (h : Keyed names m.world.store.entries) :
      Mirrored r names (.error fault m) (.error (fault.rename r) (m.rename r))

/-- The second action does to renamed machines what the first does. -/
def Mirrors {α : Type} (r : Renaming) (names : Set String) (x x' : Exec α) : Prop :=
  ∀ m, Keyed names m.world.store.entries → Mirrored r names (x m) (x' (m.rename r))

namespace Mirrors

variable {r : Renaming} {names : Set String} {α β : Type}

theorem pure (a : α) : Mirrors r names (pure a) (pure a) :=
  fun _ h => .ok a h

theorem throw {fault fault' : Fault} (h : fault.rename r = fault') :
    Mirrors r names (throw fault : Exec α) (throw fault') := by
  subst h
  exact fun _ h => .error fault h

theorem bind {x x' : Exec α} {f f' : α → Exec β} (hx : Mirrors r names x x') (hf : ∀ a, Mirrors r names (f a) (f' a)) :
    Mirrors r names (x >>= f) (x' >>= f') := by
  intro m hm
  have hfirst := hx m hm
  cases hxm : x m with
  | ok a m₁ =>
    rw [hxm] at hfirst
    generalize hxm' : x' (m.rename r) = result at hfirst
    cases hfirst with
    | ok _ hm₁ =>
      rw [Action.bind_ok hxm, Action.bind_ok hxm']
      exact hf a m₁ hm₁
  | error fault m₁ =>
    rw [hxm] at hfirst
    generalize hxm' : x' (m.rename r) = result at hfirst
    cases hfirst with
    | error _ hm₁ =>
      rw [Action.bind_error hxm, Action.bind_error hxm']
      exact .error fault hm₁

theorem lift {x : Except Fault α} (h : ∀ fault, x = .error fault → fault.rename r = fault) :
    Mirrors r names (lift x) (lift x) := by
  cases x with
  | ok a => exact .pure a
  | error fault => exact .throw (h fault rfl)

theorem push (v : Value) : Mirrors r names (push v) (push v) := by
  intro m hm
  unfold Exec.push
  by_cases hroom : m.stack.size < m.limit
  · rw [if_pos hroom, if_pos (show (m.rename r).stack.size < (m.rename r).limit from hroom)]
    exact .ok () hm
  · rw [if_neg hroom, if_neg (show ¬(m.rename r).stack.size < (m.rename r).limit from hroom)]
    exact .error _ hm

theorem pop (opcode : Opcode) : Mirrors r names (pop opcode) (pop opcode) := by
  intro ⟨stack, world, limit⟩ hm
  unfold Exec.pop
  dsimp only [Machine.rename]
  cases stack.pop? with
  | none => exact .error _ hm
  | some top => exact .ok _ hm

theorem popAs (opcode : Opcode) (kind : Kind) : Mirrors r names (popAs opcode kind) (popAs opcode kind) := by
  refine (pop opcode).bind fun v => ?_
  cases v.as? kind with
  | none => exact .throw rfl
  | some data => exact .pure data

theorem take (opcode : Opcode) (count : Nat) : Mirrors r names (take opcode count) (take opcode count) := by
  intro m hm
  unfold Exec.take
  by_cases hcount : count ≤ m.stack.size
  · rw [if_pos hcount, if_pos (show count ≤ (m.rename r).stack.size from hcount)]
    exact .ok _ hm
  · rw [if_neg hcount, if_neg (show ¬count ≤ (m.rename r).stack.size from hcount)]
    exact .error _ hm

theorem fetch {name : String} (hr : Set.InjOn r.onVariable names) (hname : name ∈ names) :
    Mirrors r names (act (World.fetch name)) (act (World.fetch (r.onVariable name))) := by
  intro ⟨stack, ⟨store, input, sink⟩, limit⟩ hm
  have hget : (store.rename r).get? (r.onVariable name) = store.get? name := lookup_renameKeys hr hm hname
  unfold act World.fetch
  dsimp only [Machine.rename, World.rename]
  rw [hget]
  cases store.get? name with
  | none => exact .error _ hm
  | some v => exact .ok _ hm

theorem save {name : String} (hr : Set.InjOn r.onVariable names) (hname : name ∈ names) (v : Value) :
    Mirrors r names (act (World.save name v)) (act (World.save (r.onVariable name) v)) := by
  intro ⟨stack, ⟨store, input, sink⟩, limit⟩ hm
  have hinsert : (store.rename r).insert (r.onVariable name) v = (store.insert name v).rename r :=
    congrArg Store.mk (Store.put_renameKeys hr hm hname v)
  unfold act World.save
  dsimp only [Machine.rename, World.rename]
  rw [hinsert]
  exact .ok () (Store.keyed_put hm hname v)

theorem print (values : List Value) : Mirrors r names (act (World.print values)) (act (World.print values)) := by
  intro ⟨stack, ⟨store, input, sink⟩, limit⟩ hm
  unfold act World.print World.write
  dsimp only [Machine.rename, World.rename]
  cases Sink.write (String.join (values.map Value.text) ++ "\n") sink with
  | ok _ sink => exact .ok () hm
  | error e sink => exact .error (.io e) hm

theorem read (kind : Kind) : Mirrors r names (act (World.read kind)) (act (World.read kind)) := by
  intro ⟨stack, ⟨store, input, sink⟩, limit⟩ hm
  unfold act
  dsimp only [Machine.rename, World.rename]
  by_cases hinput : input = []
  · have hread : ∀ store, World.read kind ⟨store, input, sink⟩ = .error .endOfInput ⟨store, input, sink⟩ := fun store =>
      World.read_of_nil kind hinput
    rw [hread, hread]
    exact .error _ hm
  · cases hdecode : Input.decode? input.firstLine with
    | none =>
      have hline : ∀ store, World.readLine ⟨store, input, sink⟩ =
          .error (.io .notUtf8) ⟨store, input.afterLine, sink⟩ := by
        simp [World.readLine, hinput, hdecode]
      rw [World.read, Action.bind_error (hline _), Action.bind_error (hline _)]
      exact .error _ hm
    | some line =>
      have hline : ∀ store, World.readLine ⟨store, input, sink⟩ = .ok line ⟨store, input.afterLine, sink⟩ := by
        simp [World.readLine, hinput, hdecode]
      rw [World.read, Action.bind_ok (hline _), Action.bind_ok (hline _)]
      cases Value.ofLine? kind line with
      | none => exact .error (.invalidInput kind line) hm
      | some v => exact .ok v hm

theorem perform {operation : Operation} (hr : Set.InjOn r.onVariable names)
    (hname : ∀ kind name, operation = .load kind name ∨ operation = .save kind name → name ∈ names) :
    Mirrors r names (perform operation) (perform (operation.rename r)) := by
  cases operation with
  | binary op =>
    refine (popAs _ _).bind fun b => (popAs _ _).bind fun a => (lift fun fault h => ?_).bind fun result =>
      (push _).bind fun _ => pure _
    rw [op.fault_of_apply h]
    rfl
  | unary op => exact (popAs _ _).bind fun a => (push _).bind fun _ => pure _
  | push v => exact (push v).bind fun _ => pure _
  | pop => exact (pop _).bind fun _ => pure _
  | load kind name =>
    refine (fetch hr (hname kind name (.inl rfl))).bind fun v => ?_
    split
    · exact (push v).bind fun _ => pure _
    · exact (throw rfl).bind fun _ => pure _
  | save kind name =>
    exact (popAs _ _).bind fun data => (save hr (hname kind name (.inr rfl)) _).bind fun _ => pure _
  | label => exact pure _
  | jump target => exact pure _
  | branch target =>
    refine (pop _).bind fun v => ?_
    rcases v.truthy? with _ | (_ | _)
    · exact throw rfl
    · exact pure _
    · exact pure _
  | print count => exact (take _ _).bind fun values => (print values).bind fun _ => pure _
  | read kind => exact (read kind).bind fun v => (push v).bind fun _ => pure _

end Mirrors

end Exec

/-! ### Steps and runs -/

/-- What a step leads to beside the same under other names. -/
inductive Progress.Mirrored (r : Renaming) (names : Set String) : Progress → Progress → Prop where
  | running (index : Nat) {m : Machine} (h : Keyed names m.world.store.entries) :
      Mirrored r names (.running index m) (.running index (m.rename r))
  | finished {m : Machine} (h : Keyed names m.world.store.entries) :
      Mirrored r names (.finished m) (.finished (m.rename r))
  | faulted (fault : Fault) {m : Machine} (h : Keyed names m.world.store.entries) :
      Mirrored r names (.faulted fault m) (.faulted (fault.rename r) (m.rename r))

theorem Machine.finish_rename (r : Renaming) (m : Machine) : (m.rename r).finish = m.finish.rename r := by
  obtain ⟨stack, ⟨store, input, ⟨written, room, flushError, flushes⟩⟩, limit⟩ := m
  cases flushError <;> rfl

theorem Machine.abort_rename (r : Renaming) (m : Machine) (fault : Fault) :
    (m.rename r).abort (fault.rename r) = (m.abort fault).rename r := by
  rw [abort, finish_rename]
  rfl

theorem Machine.keyed_finish {names : Set String} {m : Machine} (h : Keyed names m.world.store.entries) :
    Keyed names m.finish.machine.world.store.entries := by
  rw [machine_finish]
  exact h

namespace Image

variable {r : Renaming} {instructions : List Instruction} {image : Image}
  (hr : Set.InjOn r.onVariable (variablesOf instructions)) (hlink : link instructions = .ok image)

include hr hlink

theorem mirrored_step (index : Nat) {m : Machine} (hm : Keyed (variablesOf instructions) m.world.store.entries) :
    Progress.Mirrored r (variablesOf instructions) (image.step index m) ((image.rename r).step index (m.rename r)) := by
  have hentry : (image.rename r).operations[index]? =
      image.operations[index]?.map (Except.map (Operation.rename r)) := Array.getElem?_map
  unfold step
  rw [hentry]
  cases hop : image.operations[index]? with
  | none => exact .finished hm
  | some decoded =>
    cases decoded with
    | error fault =>
      obtain ⟨i, target, -, -, hdecode⟩ := exists_of_operation hlink hop
      have hfault := Fault.rename_of_ofDecoding r (Instruction.ofDecoding_of_decode hdecode)
      dsimp only [Option.map_some, Except.map]
      nth_rewrite 2 [← hfault]
      exact .faulted fault hm
    | ok operation =>
      obtain ⟨i, target, hi, -, hdecode⟩ := exists_of_operation hlink hop
      have hnames : ∀ kind name, operation = .load kind name ∨ operation = .save kind name →
          name ∈ variablesOf instructions := fun kind name h =>
        ⟨i, List.mem_of_getElem? hi, Instruction.variableName?_of_decode hdecode h⟩
      have hperform := Exec.Mirrors.perform hr hnames m hm
      dsimp only [Option.map_some, Except.map]
      generalize Exec.perform operation m = result at hperform
      generalize Exec.perform (operation.rename r) (m.rename r) = result' at hperform
      cases hperform with
      | ok flow h => cases flow <;> exact .running _ h
      | error fault h => exact .faulted fault h

/-- By induction on the steps: both runs need more of them, or both halt and again only names differ. -/
theorem run?_rename (fuel index : Nat) {m : Machine} (hm : Keyed (variablesOf instructions) m.world.store.entries) :
    (image.run? fuel index m = none ∧ (image.rename r).run? fuel index (m.rename r) = none) ∨
    ∃ halt, image.run? fuel index m = some halt ∧ Keyed (variablesOf instructions) halt.machine.world.store.entries ∧
      (image.rename r).run? fuel index (m.rename r) = some (halt.rename r) := by
  induction fuel generalizing index m with
  | zero => exact .inl ⟨rfl, rfl⟩
  | succ fuel ih =>
    have hstep := mirrored_step hr hlink index hm
    rw [run?, run?]
    generalize image.step index m = progress at hstep
    generalize (image.rename r).step index (m.rename r) = progress' at hstep
    cases hstep with
    | running next h => exact ih next h
    | @finished m₁ h => exact .inr ⟨m₁.finish, rfl, Machine.keyed_finish h, congrArg some (m₁.finish_rename r)⟩
    | @faulted fault m₁ h =>
      exact .inr ⟨m₁.abort fault, rfl, Machine.keyed_finish h, congrArg some (m₁.abort_rename r fault)⟩

end Image

namespace Machine

variable {r : Renaming} {instructions : List Instruction}

theorem run?_rename (hvariables : Set.InjOn r.onVariable (variablesOf instructions))
    (hlabels : Set.InjOn r.onLabel (placesOf instructions)) (m : Machine) (fuel : Nat) :
    (m.run? fuel instructions = none ∧ m.run? fuel (instructions.map (Instruction.rename r)) = none) ∨
    ∃ halt, m.run? fuel instructions = some halt ∧
      Keyed (variablesOf instructions) halt.machine.world.store.entries ∧
      m.run? fuel (instructions.map (Instruction.rename r)) = some (halt.rename r) := by
  have hempty : Keyed (variablesOf instructions) m.reset.world.store.entries := nofun
  unfold run?
  rw [Image.link_rename hlabels]
  cases hlink : Image.link instructions with
  | error fault => exact .inr ⟨_, rfl, hempty, rfl⟩
  | ok image => exact Image.run?_rename hvariables hlink fuel 0 hempty

/-- The names of variables and of labels only have to be kept apart, each among themselves: a variable may be called
like a label, and one may be renamed without the other. Under other names a run ends within as many steps with the same
stack, input and sink, with the same values under the new names and no others, and with the same outcome, in which a
fault that names a variable or a label has the new name. -/
theorem run_up_to_renaming (hvariables : Set.InjOn r.onVariable (variablesOf instructions))
    (hlabels : Set.InjOn r.onLabel (placesOf instructions)) (m : Machine) (fuel : Nat) :
    (m.run? fuel (instructions.map (Instruction.rename r)) = none ↔ m.run? fuel instructions = none) ∧
    ∀ halt, m.run? fuel instructions = some halt →
      ∃ halt', m.run? fuel (instructions.map (Instruction.rename r)) = some halt' ∧
        halt'.outcome = halt.outcome.mapError (Fault.rename r) ∧
        halt'.machine.stack = halt.machine.stack ∧
        halt'.machine.world.input = halt.machine.world.input ∧
        halt'.machine.world.sink = halt.machine.world.sink ∧
        ∀ other v, halt'.machine.world.store.get? other = some v ↔
          ∃ name, r.onVariable name = other ∧ halt.machine.world.store.get? name = some v := by
  rcases run?_rename hvariables hlabels m fuel with ⟨hrun, hrun'⟩ | ⟨halt, hrun, hkeyed, hrun'⟩
  · exact ⟨iff_of_true hrun' hrun, fun halt h => nomatch hrun.symm.trans h⟩
  · refine ⟨iff_of_false (by simp [hrun']) (by simp [hrun]), fun halt₁ h => ?_⟩
    obtain rfl : halt = halt₁ := Option.some.inj (hrun.symm.trans h)
    exact ⟨halt.rename r, hrun', rfl, rfl, rfl, rfl, fun other v => lookup_renameKeys_eq_some hvariables hkeyed⟩

/-- Code in which `a` is both a variable and a label, and of which the last instruction faults. -/
def namesakes : List Instruction :=
  [.push .int "1", .save .int "a", .jmp "a", .plain .pop, .label "a", .load .int "b"]

/-- The two variables trade their names, and the label takes the name of one of them. -/
def trading : Renaming :=
  ⟨fun name => if name = "a" then "b" else "a", fun _ => "b"⟩

theorem run_up_to_renaming_trading :
    Set.InjOn trading.onVariable (variablesOf namesakes) ∧ Set.InjOn trading.onLabel (placesOf namesakes) ∧
    ∃ halt', (new [] .unbounded 1).run? 6 (namesakes.map (Instruction.rename trading)) = some halt' ∧
      halt'.outcome = .error (.undefinedVariable "a") ∧ halt'.machine.world.store.get? "b" = some (.int 1) := by
  have hvariables : Set.InjOn trading.onVariable (variablesOf namesakes) := by
    have hmem : ∀ name ∈ variablesOf namesakes, name ∈ ["a", "b"] := fun name ⟨i, hi, hname⟩ =>
      List.mem_filterMap.mpr ⟨i, hi, hname⟩
    intro name hname other hother h
    have hab : ∀ name ∈ ["a", "b"], ∀ other ∈ ["a", "b"], trading.onVariable name = trading.onVariable other →
        name = other := by decide
    exact hab name (hmem name hname) other (hmem other hother) h
  have hlabels : Set.InjOn trading.onLabel (placesOf namesakes) := by
    have hmem : ∀ name ∈ placesOf namesakes, name ∈ ["a", "a"] := fun name ⟨i, hi, hname⟩ =>
      List.mem_filterMap.mpr ⟨i, hi, hname⟩
    intro name hname other hother _
    have ha : ∀ name ∈ ["a", "a"], name = "a" := by decide
    exact (ha name (hmem name hname)).trans (ha other (hmem other hother)).symm
  obtain ⟨halt, hrun, houtcome, hget⟩ : ∃ halt, (new [] .unbounded 1).run? 6 namesakes = some halt ∧
      halt.outcome = .error (.undefinedVariable "b") ∧ halt.machine.world.store.get? "a" = some (.int 1) :=
    ⟨_, rfl, rfl, rfl⟩
  obtain ⟨halt', hrun', houtcome', -, -, -, hstore⟩ := (run_up_to_renaming hvariables hlabels _ 6).2 halt hrun
  rw [houtcome] at houtcome'
  exact ⟨hvariables, hlabels, halt', hrun', houtcome', (hstore "b" _).mpr ⟨"a", rfl, hget⟩⟩

end Machine

end StackMachine
