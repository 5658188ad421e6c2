import TreeTraversal.Visitor.Basic

/-!
# What hooks leave behind

A hook that fails leaves a state behind all the same, and a visitor may have been told anything before
a walk begins. What every hook keeps, any history of hooks keeps.
-/

namespace TreeTraversal

variable {ε σ β γ : Type}

/-! ## 1. States left behind -/

/-- The state that a step leaves behind, whether it fails or not. -/
def stateLeft (x : EStateM ε σ β) (s : σ) : σ :=
  match x s with
  | .ok _ s' => s'
  | .error _ s' => s'

theorem stateLeft_of_ok {x : EStateM ε σ β} {s s' : σ} {b : β} (h : x s = .ok b s') :
    stateLeft x s = s' := by
  unfold stateLeft
  rw [h]

theorem stateLeft_of_error {x : EStateM ε σ β} {s s' : σ} {e : ε} (h : x s = .error e s') :
    stateLeft x s = s' := by
  unfold stateLeft
  rw [h]

-- A step that succeeds hands its state on to the next.
theorem bind_of_ok {x : EStateM ε σ β} {next : β → EStateM ε σ γ} {s s' : σ} {b : β}
    (h : x s = .ok b s') : (x >>= next) s = next b s' := by
  show EStateM.bind x next s = next b s'
  rw [EStateM.bind, h]

-- A step that fails is the last one.
theorem bind_of_error {x : EStateM ε σ β} {next : β → EStateM ε σ γ} {s s' : σ} {e : ε}
    (h : x s = .error e s') : (x >>= next) s = .error e s' := by
  show EStateM.bind x next s = .error e s'
  rw [EStateM.bind, h]

theorem get_bind (next : σ → EStateM ε σ β) (s : σ) : (get >>= next) s = next s s :=
  rfl

theorem modify_bind (f : σ → σ) (next : PUnit → EStateM ε σ β) (s : σ) :
    (modify f >>= next) s = next () (f s) :=
  rfl

theorem check_ok [IncludesErrors ε] (b : β) :
    (Error.check (.ok b) : EStateM ε σ β) = pure b :=
  rfl

/-- Whether a step keeps a property of the state, also when it fails. -/
def Keeps (P : σ → Prop) (x : EStateM ε σ β) : Prop :=
  ∀ s, P s → P (stateLeft x s)

theorem keeps_bind {P : σ → Prop} {x : EStateM ε σ β} {next : β → EStateM ε σ γ} (hx : Keeps P x)
    (hnext : ∀ b, Keeps P (next b)) : Keeps P (x >>= next) := by
  intro s hs
  -- what the first step leaves behind has the property, whether there is a second or not
  have hleft := hx s hs
  cases hrun : x s with
  | ok b s' =>
    rw [stateLeft_of_ok hrun] at hleft
    have hafter := hnext b s' hleft
    rwa [stateLeft, bind_of_ok hrun]
  | error e s' =>
    rw [stateLeft_of_error hrun] at hleft
    rwa [stateLeft_of_error (bind_of_error hrun)]

theorem keeps_modify {P : σ → Prop} {f : σ → σ} (h : ∀ s, P s → P (f s)) :
    Keeps P (modify f : EStateM ε σ Unit) :=
  h

theorem keeps_get {P : σ → Prop} : Keeps P (get : EStateM ε σ σ) :=
  fun _ hs => hs

theorem keeps_raise [IncludesErrors ε] {P : σ → Prop} (e : Error) :
    Keeps P (Error.raise e : EStateM ε σ β) :=
  fun _ hs => hs

theorem keeps_check [IncludesErrors ε] {P : σ → Prop} (r : Except Error β) :
    Keeps P (Error.check r : EStateM ε σ β) := by
  intro s hs
  cases r with
  | ok b => exact hs
  | error e => exact hs

/-! ## 2. Histories -/

namespace Visitor

variable {α : Type}

/-- The state after a hook. -/
def after (v : Visitor α ε σ) (s : σ) (event : Event (Node α)) : σ :=
  stateLeft (v.handle event) s

/-- The state after some hooks, each called whatever became of those before it. -/
def afterAll (v : Visitor α ε σ) (s : σ) (history : List (Event (Node α))) : σ :=
  history.foldl v.after s

theorem afterAll_concat (v : Visitor α ε σ) (s : σ) (history : List (Event (Node α)))
    (event : Event (Node α)) :
    v.afterAll s (history ++ [event]) = v.after (v.afterAll s history) event :=
  List.foldl_append

theorem afterAll_keeps {v : Visitor α ε σ} {P : σ → Prop} (step : ∀ event, Keeps P (v.handle event))
    (history : List (Event (Node α))) {s : σ} (h : P s) : P (v.afterAll s history) := by
  induction history generalizing s with
  | nil => exact h
  | cons event rest ih =>
    apply ih
    exact step event s h

end Visitor

end TreeTraversal
