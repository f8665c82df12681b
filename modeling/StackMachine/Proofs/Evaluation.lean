import StackMachine.Evaluation
import StackMachine.Proofs.Actions

/-! How evaluations are put together, and what does not depend on the fuel.

An evaluation that came to an end comes to the same end with more fuel. `Ends` states how an action may end. Whatever
relation of worlds the elementary actions respect (`World.Stable`) holds between the worlds before and after an
evaluation. -/

namespace StackMachine

variable {α : Type} {w : World} {result : EStateM.Result Fault World Unit}

theorem Act.andThen_eq_some {action : Act α} {next : α → World → Evaluated} :
    Act.andThen action w next = some result ↔
      (∃ a w', action w = .ok a w' ∧ next a w' = some result) ∨
      ∃ fault w', action w = .error fault w' ∧ result = .error fault w' := by
  unfold Act.andThen
  cases hx : action w with
  | ok a w' =>
    exact ⟨fun h => Or.inl ⟨a, w', rfl, h⟩, fun h => by
      rcases h with ⟨_, _, ha, h⟩ | ⟨_, _, ha, _⟩ <;> cases ha
      exact h⟩
  | error fault w' =>
    exact ⟨fun h => Or.inr ⟨fault, w', rfl, (Option.some.inj h).symm⟩, fun h => by
      rcases h with ⟨_, _, ha, _⟩ | ⟨_, _, ha, rfl⟩ <;> cases ha
      rfl⟩

theorem Evaluated.andThen_eq_some {first : Evaluated} {next : World → Evaluated} :
    first.andThen next = some result ↔
      (∃ w', first = some (.ok () w') ∧ next w' = some result) ∨
      ∃ fault w', first = some (.error fault w') ∧ result = .error fault w' := by
  rcases first with _ | (⟨⟨⟩, w'⟩ | ⟨fault, w'⟩)
  · exact ⟨fun h => (by cases h), fun h => by rcases h with ⟨_, h, _⟩ | ⟨_, _, h, _⟩ <;> cases h⟩
  · exact ⟨fun h => Or.inl ⟨w', rfl, h⟩, fun h => by
      rcases h with ⟨_, hw, h⟩ | ⟨_, _, hw, _⟩ <;> cases hw
      exact h⟩
  · exact ⟨fun h => Or.inr ⟨fault, w', rfl, (Option.some.inj h).symm⟩, fun h => by
      rcases h with ⟨_, hw, _⟩ | ⟨_, _, hw, rfl⟩ <;> cases hw
      rfl⟩

/-- An action that is followed by another one is their bind. -/
theorem Act.andThen_some {α : Type} {x : Act α} {f : α → Act Unit} {w : World} :
    x.andThen w (fun a w => some (f a w)) = some ((x >>= f) w) := by
  unfold Act.andThen
  cases hx : x w with
  | ok a w' => rw [Action.bind_ok hx]
  | error fault w' => rw [Action.bind_error hx]

theorem Act.andThen_mono {action : Act α} {next next' : α → World → Evaluated}
    (h : Act.andThen action w next = some result)
    (hnext : ∀ a w', next a w' = some result → next' a w' = some result) :
    Act.andThen action w next' = some result := by
  rcases Act.andThen_eq_some.mp h with ⟨a, w', ha, h⟩ | h
  · exact Act.andThen_eq_some.mpr (Or.inl ⟨a, w', ha, hnext a w' h⟩)
  · exact Act.andThen_eq_some.mpr (Or.inr h)

theorem Evaluated.andThen_mono {first first' : Evaluated} {next next' : World → Evaluated}
    (h : first.andThen next = some result) (hfirst : ∀ r, first = some r → first' = some r)
    (hnext : ∀ w', next w' = some result → next' w' = some result) : first'.andThen next' = some result := by
  rcases Evaluated.andThen_eq_some.mp h with ⟨w', hw, h⟩ | ⟨fault, w', hw, h⟩
  · exact Evaluated.andThen_eq_some.mpr (Or.inl ⟨w', hfirst _ hw, hnext w' h⟩)
  · exact Evaluated.andThen_eq_some.mpr (Or.inr ⟨fault, w', hfirst _ hw, h⟩)

/-! ### Fuel -/

namespace Stmt

variable {scope : Scope} {fuel fuel' : Nat} {body : List Stmt}

theorem eval?_succ (fuel : Nat) :
    (∀ (s : Stmt) (w : World) result, s.eval? scope fuel w = some result → s.eval? scope (fuel + 1) w = some result) ∧
    (∀ (body : List Stmt) (w : World) result,
      evalAll? scope fuel body w = some result → evalAll? scope (fuel + 1) body w = some result) := by
  induction fuel with
  | zero => exact ⟨fun s w result h => (by cases h), fun body w result h => (by cases h)⟩
  | succ fuel ih =>
    obtain ⟨ih, ihAll⟩ := ih
    refine ⟨fun s w result h => ?_, fun body w result h => ?_⟩
    · cases s with
      | declare | expr | read | write | empty => exact h
      | block body span => exact ihAll body w result h
      | ifElse condition yes no span =>
        rw [eval?] at h ⊢
        refine Act.andThen_mono h fun b w' h => ?_
        cases b with
        | true => exact ih yes w' result h
        | false => exact ih no w' result h
      | whileLoop condition body span =>
        rw [eval?] at h ⊢
        refine Act.andThen_mono h fun b w' h => ?_
        cases b with
        | true => exact Evaluated.andThen_mono h (ih body w') fun w'' => ih _ w'' result
        | false => exact h
      | forLoop init condition update body span =>
        rw [eval?] at h ⊢
        refine Act.andThen_mono h fun _ w' h => Act.andThen_mono h fun b w' h => ?_
        cases b with
        | true => exact Evaluated.andThen_mono h (ih body w') fun w'' => ih _ w'' result
        | false => exact h
    · cases body with
      | nil => exact h
      | cons s rest => exact Evaluated.andThen_mono h (ih s w) fun w' => ihAll rest w' result

theorem evalAll?_mono (h : evalAll? scope fuel body w = some result) (hle : fuel ≤ fuel') :
    evalAll? scope fuel' body w = some result := by
  induction hle with
  | refl => exact h
  | step _ ih => exact (eval?_succ _).2 body w result ih

theorem evalAll?_unique {result' : EStateM.Result Fault World Unit} (h : evalAll? scope fuel body w = some result)
    (h' : evalAll? scope fuel' body w = some result') : result = result' := by
  have h := evalAll?_mono h (Nat.le_max_left fuel fuel')
  have h' := evalAll?_mono h' (Nat.le_max_right fuel fuel')
  rw [h] at h'
  exact Option.some.inj h'

end Stmt

/-! ### How actions end -/

/-- An action ends with a result and a world as stated, or with an allowed fault. -/
def Ends (allowed : Fault → Prop) (post : α → World → Prop) : EStateM.Result Fault World α → Prop
  | .ok a w => post a w
  | .error fault _ => allowed fault

namespace Ends

variable {β : Type} {allowed : Fault → Prop} {post : α → World → Prop} {post' : β → World → Prop}

theorem bind {x : Act α} {f : α → Act β} (h : Ends allowed post (x w))
    (hf : ∀ a w', post a w' → Ends allowed post' (f a w')) : Ends allowed post' ((x >>= f) w) := by
  cases hx : x w with
  | ok a w' =>
    rw [hx] at h
    rw [Action.bind_ok hx]
    exact hf a w' h
  | error fault w' =>
    rw [hx] at h
    rw [Action.bind_error hx]
    exact h

theorem act_andThen {action : Act α} {next : α → World → Evaluated} {post' : Unit → World → Prop}
    (he : Act.andThen action w next = some result) (ha : Ends allowed post (action w))
    (hnext : ∀ a w', post a w' → next a w' = some result → Ends allowed post' result) : Ends allowed post' result := by
  rcases Act.andThen_eq_some.mp he with ⟨a, w', hx, he⟩ | ⟨fault, w', hx, rfl⟩
  · rw [hx] at ha
    exact hnext a w' ha he
  · rw [hx] at ha
    exact ha

theorem evaluated_andThen {first : Evaluated} {next : World → Evaluated} {post post' : Unit → World → Prop}
    (he : first.andThen next = some result) (hfirst : ∀ r, first = some r → Ends allowed post r)
    (hnext : ∀ w', post () w' → next w' = some result → Ends allowed post' result) : Ends allowed post' result := by
  rcases Evaluated.andThen_eq_some.mp he with ⟨w', hw, he⟩ | ⟨fault, w', hw, rfl⟩
  · exact hnext w' (hfirst _ hw) he
  · exact hfirst _ hw

end Ends

/-! ### What an evaluation leaves -/

/-- The world that an action leaves, whether it faults or not. -/
def worldAfter : EStateM.Result Fault World α → World
  | .ok _ w => w
  | .error _ w => w

/-- A relation between a world and a later one that each elementary action respects. -/
structure World.Stable (related : World → World → Prop) : Prop where
  refl : ∀ w, related w w
  trans : ∀ {w₁ w₂ w₃}, related w₁ w₂ → related w₂ w₃ → related w₁ w₃
  save : ∀ name v w, related w (worldAfter (World.save name v w))
  write : ∀ text w, related w (worldAfter (World.write text w))
  readLine : ∀ w, related w (worldAfter (World.readLine w))

namespace World.Stable

variable {β : Type} {related : World → World → Prop} {scope : Scope} {fuel : Nat}

theorem bind (h : Stable related) {x : Act α} {f : α → Act β} (hx : related w (worldAfter (x w)))
    (hf : ∀ a w', related w' (worldAfter (f a w'))) : related w (worldAfter ((x >>= f) w)) := by
  cases hr : x w with
  | ok a w' =>
    rw [hr] at hx
    rw [Action.bind_ok hr]
    exact h.trans hx (hf a w')
  | error fault w' =>
    rw [hr] at hx
    rw [Action.bind_error hr]
    exact hx

theorem fetch (h : Stable related) (name : String) (w : World) : related w (worldAfter (World.fetch name w)) := by
  unfold World.fetch
  split <;> exact h.refl w

theorem read (h : Stable related) (kind : Kind) (w : World) : related w (worldAfter (World.read kind w)) := by
  refine h.bind (h.readLine w) fun line w' => ?_
  cases Value.ofLine? kind line <;> exact h.refl w'

theorem applied (h : Stable related) (opcode : Opcode) (operand : Value) (value : Applied) (w : World) :
    related w (worldAfter (Expr.result opcode operand value w)) := by
  rcases value with _ | (_ | _) <;> exact h.refl w

theorem eval (h : Stable related) (e : Expr) (w : World) : related w (worldAfter (e.eval scope w)) := by
  induction e generalizing w with
  | int | float | string | bool => exact h.refl w
  | var name span => exact h.fetch name w
  | binary op left right span ihl ihr | logical op left right span ihl ihr =>
    exact h.bind (ihl w) fun a w' => h.bind (ihr w') fun b w'' => h.applied _ _ _ w''
  | unary op operand span ih => exact h.bind (ih w) fun a w' => h.applied _ _ _ w'
  | group inner span ih => exact ih w
  | assign target value span ih =>
    exact h.bind (ih w) fun v w' => h.bind (h.save target _ w') fun _ w'' => h.refl w''

theorem holds (h : Stable related) (e : Expr) (w : World) : related w (worldAfter (e.holds scope w)) := by
  refine h.bind (h.eval e w) fun v w' => ?_
  cases v.truthy? <;> exact h.refl w'

theorem evalOption (h : Stable related) (clause : Option Expr) (w : World) :
    related w (worldAfter (Expr.evalOption scope clause w)) := by
  cases clause with
  | none => exact h.refl w
  | some e => exact h.bind (h.eval e w) fun _ w' => h.refl w'

theorem evalAll (h : Stable related) (exprs : List Expr) (w : World) :
    related w (worldAfter (Expr.evalAll scope exprs w)) := by
  induction exprs generalizing w with
  | nil => exact h.refl w
  | cons e rest ih => exact h.bind (h.eval e w) fun v w' => h.bind (ih w') fun _ w'' => h.refl w''

theorem saveAll (h : Stable related) (v : Value) (names : List String) (w : World) :
    related w (worldAfter (World.saveAll v names w)) := by
  induction names generalizing w with
  | nil => exact h.refl w
  | cons name rest ih => exact h.bind (h.save name v w) fun _ w' => ih w'

theorem readAll (h : Stable related) (span : Span) (names : List String) (w : World) :
    related w (worldAfter (World.readAll scope span names w)) := by
  induction names generalizing w with
  | nil => exact h.refl w
  | cons name rest ih =>
    rw [World.readAll]
    cases scope name span with
    | error => exact ih w
    | ok ty =>
      dsimp only
      cases Kind.ofTy? ty with
      | none => exact ih w
      | some kind => exact h.bind (h.read kind w) fun v w' => h.bind (h.save name v w') fun _ w'' => ih w''

theorem act_andThen (h : Stable related) {action : Act α} {next : α → World → Evaluated}
    (he : Act.andThen action w next = some result) (ha : related w (worldAfter (action w)))
    (hnext : ∀ a w', next a w' = some result → related w' (worldAfter result)) : related w (worldAfter result) := by
  rcases Act.andThen_eq_some.mp he with ⟨a, w', hx, he⟩ | ⟨fault, w', hx, rfl⟩
  · rw [hx] at ha
    exact h.trans ha (hnext a w' he)
  · rw [hx] at ha
    exact ha

theorem evaluated_andThen (h : Stable related) {first : Evaluated} {next : World → Evaluated}
    (he : first.andThen next = some result) (hfirst : ∀ r, first = some r → related w (worldAfter r))
    (hnext : ∀ w', next w' = some result → related w' (worldAfter result)) : related w (worldAfter result) := by
  rcases Evaluated.andThen_eq_some.mp he with ⟨w', hw, he⟩ | ⟨fault, w', hw, rfl⟩
  · exact h.trans (hfirst _ hw) (hnext w' he)
  · exact hfirst _ hw

theorem eval? (h : Stable related) (fuel : Nat) :
    (∀ (s : Stmt) (w : World) result, s.eval? scope fuel w = some result → related w (worldAfter result)) ∧
    (∀ (body : List Stmt) (w : World) result,
      Stmt.evalAll? scope fuel body w = some result → related w (worldAfter result)) := by
  induction fuel with
  | zero => exact ⟨fun s w result he => (by cases he), fun body w result he => (by cases he)⟩
  | succ fuel ih =>
    obtain ⟨ih, ihAll⟩ := ih
    refine ⟨fun s w result he => ?_, fun body w result he => ?_⟩
    · cases s with
      | declare type names span =>
        rw [Stmt.eval?] at he
        cases hd : (Ty.ofKeyword? type.keyword).bind Value.default? with
        | none =>
          rw [hd] at he
          cases he
          exact h.refl w
        | some v =>
          rw [hd] at he
          cases he
          exact h.saveAll v names w
      | expr e span =>
        cases he
        exact h.evalOption (some e) w
      | block body span => exact ihAll body w result he
      | ifElse condition yes no span =>
        refine h.act_andThen he (h.holds condition w) fun b w' he => ?_
        cases b with
        | true => exact ih yes w' result he
        | false => exact ih no w' result he
      | whileLoop condition body span =>
        refine h.act_andThen he (h.holds condition w) fun b w' he => ?_
        cases b with
        | true => exact h.evaluated_andThen he (ih body w') fun w'' => ih _ w'' result
        | false =>
          cases he
          exact h.refl w'
      | forLoop init condition update body span =>
        refine h.act_andThen he (h.evalOption init w) fun _ w' he => ?_
        refine h.act_andThen he ?_ fun b w' he => ?_
        · cases condition with
          | none => exact h.refl w'
          | some condition => exact h.holds condition w'
        · cases b with
          | true => exact h.evaluated_andThen he (ih body w') fun w'' => ih _ w'' result
          | false =>
            cases he
            exact h.refl w'
      | read names span =>
        cases he
        exact h.readAll span names w
      | write exprs fits span =>
        refine h.act_andThen he (h.evalAll exprs w) fun values w' he => ?_
        cases he
        exact h.write _ w'
      | empty span =>
        cases he
        exact h.refl w
    · cases body with
      | nil =>
        cases he
        exact h.refl w
      | cons s rest => exact h.evaluated_andThen he (ih s w) fun w' => ihAll rest w' result

end World.Stable

end StackMachine
