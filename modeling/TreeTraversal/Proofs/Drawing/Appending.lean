import TreeTraversal.Proofs.Plan.Execution
import TreeTraversal.Traverse

/-!
# Drawings behind a text

A directory visitor never reads what is in its sink. So a drawing comes out the same behind any text that
the sink holds already, also where it breaks off by an error.
-/

namespace TreeTraversal

/-! ## 1. Steps behind a text -/

namespace Directory

variable {ε β γ : Type}

/-- The same state with a text before all that was written. -/
def behind (before : String) (d : Directory) : Directory :=
  { d with sink := ⟨before ++ d.sink.contents⟩ }

/-- Whether a step does behind any text what it does without that text. -/
def Appends (x : EStateM ε Directory β) : Prop :=
  ∀ before d, x (d.behind before) =
    match x d with
    | .ok b d' => .ok b (d'.behind before)
    | .error e d' => .error e (d'.behind before)

theorem Appends.of_ok {x : EStateM ε Directory β} (h : Appends x) {d d' : Directory} {b : β}
    (hrun : x d = .ok b d') (before : String) : x (d.behind before) = .ok b (d'.behind before) := by
  rw [h before d, hrun]

theorem Appends.of_error {x : EStateM ε Directory β} (h : Appends x) {d d' : Directory} {e : ε}
    (hrun : x d = .error e d') (before : String) :
    x (d.behind before) = .error e (d'.behind before) := by
  rw [h before d, hrun]

theorem appends_pure (b : β) : Appends (pure b : EStateM ε Directory β) :=
  fun _ _ => rfl

theorem appends_bind {x : EStateM ε Directory β} {next : β → EStateM ε Directory γ} (hx : Appends x)
    (hnext : ∀ b, Appends (next b)) : Appends (x >>= next) := by
  intro before d
  cases hrun : x d with
  | ok b d' => rw [bind_of_ok (hx.of_ok hrun before), bind_of_ok hrun, hnext b before d']
  | error e d' => rw [bind_of_error (hx.of_error hrun before), bind_of_error hrun]

-- What is read off the state must not be the text.
theorem appends_get_bind {next : Directory → EStateM ε Directory γ}
    (hsame : ∀ before d, next (d.behind before) = next d) (hnext : ∀ d, Appends (next d)) :
    Appends (get >>= next) := by
  intro before d
  rw [get_bind, get_bind, hsame before d, hnext d before d]

theorem appends_modify {f : Directory → Directory}
    (h : ∀ before d, f (d.behind before) = (f d).behind before) :
    Appends (modify f : EStateM ε Directory Unit) :=
  fun before d => congrArg (EStateM.Result.ok ()) (h before d)

variable [IncludesErrors ε]

theorem appends_raise (e : Error) : Appends (Error.raise e : EStateM ε Directory β) :=
  fun _ _ => rfl

theorem appends_check (r : Except Error β) : Appends (Error.check r : EStateM ε Directory β) := by
  cases r with
  | ok b => exact appends_pure b
  | error e => exact appends_raise e

/-! ## 2. Hooks and walks behind a text -/

theorem put_behind (text before : String) (d : Directory) :
    put text (d.behind before) = (put text d).behind before := by
  simp [put, behind, Sink.write, String.append_assoc]

theorem finishLine_behind (text before : String) (isLast : Bool) (d : Directory) :
    finishLine text isLast (d.behind before) = (finishLine text isLast d).behind before := by
  simp [finishLine, behind, Sink.write, Sink.writeLine, String.append_assoc]

theorem appends_draw (n : Node Value) : Appends (draw n : EStateM ε Directory Unit) := by
  refine appends_bind (appends_check _) fun isLast => ?_
  refine appends_get_bind (fun before d => rfl) fun d => ?_
  refine appends_bind (appends_check _) fun indent => ?_
  refine appends_bind (appends_modify (put_behind indent)) fun _ => ?_
  refine appends_get_bind (fun before d => rfl) fun d => ?_
  refine appends_bind (appends_check _) fun branch => ?_
  refine appends_bind (appends_modify (put_behind branch)) fun _ => ?_
  exact appends_modify fun before d => finishLine_behind n.text before isLast d

theorem appends_tryLeave : Appends (tryLeave : EStateM ε Directory Unit) := by
  refine appends_get_bind (fun before d => rfl) fun d => ?_
  by_cases hdepth : d.depth = 0
  · rw [if_pos hdepth]
    exact appends_raise _
  · rw [if_neg hdepth]
    exact appends_modify fun before d => rfl

theorem appends_replay (calls : List (Event (Node Value))) :
    Appends ((visitor : Visitor Value ε Directory).replay calls) := by
  induction calls with
  | nil => exact appends_pure ()
  | cons event rest ih =>
    refine appends_bind ?_ fun _ => ih
    cases event with
    | visit n => exact appends_draw n
    | enter => exact appends_modify fun before d => rfl
    | leave => exact appends_tryLeave

theorem appends_walk (s : Strategy) (root : Option (Node Value)) :
    Appends (s.walk (visitor : Visitor Value ε Directory) root) := by
  rw [Strategy.walk_eq_follow]
  refine appends_bind (appends_replay _) fun _ => ?_
  cases (s.scriptOf root).fault with
  | none => exact appends_pure ()
  | some e => exact appends_raise e

end Directory

/-! ## 3. Executions behind a text -/

namespace Plan

theorem execute_behind (p : Plan Value) (before : String) (d : Directory) :
    p.execute (Directory.visitor : Visitor Value Error Directory) (d.behind before)
      = (p.execute (Directory.visitor : Visitor Value Error Directory) d).mapState
          fun state => (state.1, state.2.behind before) := by
  let v : Visitor Value Error Directory := Directory.visitor
  have hwalk := Directory.appends_walk (ε := Error) p.chosen p.root
  cases hrun : p.chosen.walk v p.root d with
  | error e d' =>
    rw [execute_of_error (hwalk.of_error hrun before), execute_of_error hrun]
    rfl
  | ok u d' =>
    have hbalance : v.isBalanced (d'.behind before) = v.isBalanced d' := rfl
    rw [execute_eq_of_ok (hwalk.of_ok hrun before), execute_eq_of_ok hrun, hbalance]
    cases conclude p.config v.name (v.isBalanced d') <;> rfl

theorem perform_behind (config : Config) (root : Option (Node Value)) (before : String)
    (d : Directory) :
    perform config root (Directory.visitor : Visitor Value Error Directory) (d.behind before)
      = (perform config root (Directory.visitor : Visitor Value Error Directory) d).mapState
          fun d' => d'.behind before := by
  cases hcreate : create config root with
  | error e => simp only [perform, hcreate, Run.mapState]
  | ok p => simp only [perform, hcreate, execute_behind, Run.mapState]

end Plan

/-- Drawing into a sink that holds some text leaves that text with what would have been drawn into an
empty sink behind it, and has the same outcome. -/
theorem writeTree_behind (root : Option (Node Value)) (sink : Sink) (g : Glyphs) :
    writeTree root sink g
      = (writeTree root {} g).mapState fun drawn => ⟨sink.contents ++ drawn.contents⟩ := by
  let empty : Directory := { sink := {}, glyphs := g }
  have hstart : ({ sink := sink, glyphs := g } : Directory) = empty.behind sink.contents := by
    show _ = ({ sink := ⟨sink.contents ++ ""⟩, glyphs := g } : Directory)
    rw [String.append_empty]
  simp only [writeTree, hstart, Plan.perform_behind]
  rfl

end TreeTraversal
