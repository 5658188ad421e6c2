import TreeTraversal.Proofs.Plan.ShapeCheck
import TreeTraversal.Traverse

/-!
# Listing a tree in one call

Where a strategy suits a tree and its walk has no fault, a single call lists the data of the nodes that
the walk visits, as a list or as one text.
-/

namespace TreeTraversal

/-! ## 1. Plain visitors -/

theorem Sink.write_empty (s : Sink) : s.write "" = s :=
  congrArg Sink.mk String.append_empty

theorem Sink.write_write (s : Sink) (a b : String) : (s.write a).write b = s.write (a ++ b) :=
  congrArg Sink.mk (String.append_assoc ..)

namespace Plain

variable {ε : Type}

/-- The text of some data, each followed by a separator. -/
def listing (separator : Value) (data : List Value) : String :=
  String.join (data.map fun d => d.text ++ separator.text)

theorem listing_nil (separator : Value) : listing separator [] = "" :=
  String.join_nil

theorem listing_cons (separator d : Value) (data : List Value) :
    listing separator (d :: data) = (d.text ++ separator.text) ++ listing separator data := by
  rw [listing, List.map_cons, String.join_cons]
  rfl

/-- The visitor with some more data written. -/
def writing (p : Plain) (data : List Value) : Plain :=
  { p with sink := p.sink.write (listing p.separator data) }

-- A plain visitor never fails, and writes the data of what it visits.
theorem replay_visitor (calls : List (Event (Node Value))) (p : Plain) :
    (visitor : Visitor Value ε Plain).replay calls p
      = .ok () (p.writing ((calls.filterMap Event.subject?).map Node.data)) := by
  induction calls generalizing p with
  | nil =>
    show EStateM.Result.ok () p = .ok () (p.writing [])
    rw [writing, listing_nil, Sink.write_empty]
  | cons event rest ih =>
    cases event with
    | visit n =>
      have hvisit : (visitor : Visitor Value ε Plain).handle (.visit n) p = .ok () (p.visit n.data) :=
        rfl
      rw [Visitor.replay, bind_of_ok hvisit, ih]
      simp [writing, visit, Event.subject?, listing_cons, Sink.write_write]
    | enter => exact ih p
    | leave => exact ih p

end Plain

/-! ## 2. Scripts that yield a list -/

namespace Script

variable {α : Type} {a b : Script α} {xs ys : List α}

/-- Whether a script has no fault and visits nodes with these data, in this order. -/
def Yields (script : Script α) (data : List α) : Prop :=
  script.fault = none ∧ script.visited.map Node.data = data

theorem Yields.andThen (ha : a.Yields xs) (hb : b.Yields ys) : (a.andThen b).Yields (xs ++ ys) := by
  constructor
  · rw [andThen_of_none ha.1]
    exact hb.1
  · rw [visited_andThen ha.1, List.map_append, ha.2, hb.2]

end Script

/-! ## 3. One call -/

theorem Strategy.ofAlias?_key (s : Strategy) : ofAlias? s.key = some s := by
  cases s <;> decide +kernel

theorem Strategy.ofValue_key (s : Strategy) : ofValue (.str s.key) = .ok s := by
  simp only [ofValue, ofAlias?_key]

section Traverse

variable {α ε σ : Type} [IncludesErrors ε] {root : Option (Node α)} {strategy : Value} {s : Strategy}

theorem Glyphs.issues_boxDrawing : Glyphs.boxDrawing.issues = [] := by
  decide

-- A strategy that suits the tree is carried out, in whichever way it is named.
theorem traverse_of_ok {v : Visitor α ε σ} {start s' : σ} (hs : Strategy.ofValue strategy = .ok s)
    (hroot : Plan.rootIssues s root = []) (hwalk : s.walk v root start = .ok () s')
    (hbalanced : v.isBalanced s' = true) :
    (traverse root v start strategy).outcome = .ok (Plan.visits (s.scriptOf root).calls) ∧
      (traverse root v start strategy).state = s' := by
  let config : Config := { strategy := .strategy s }
  have hcreate : Plan.create config root = .ok (Plan.fresh config root s) :=
    Plan.create_of_suited rfl Glyphs.issues_boxDrawing hroot
  have hrun : traverse root v start strategy = Plan.perform config root v start := by
    unfold traverse
    rw [hs]
  rw [hrun]
  exact Plan.perform_of_ok rfl hcreate hwalk hbalanced

-- One that does not suit the tree is refused before any hook is called.
theorem traverse_of_unsuited {v : Visitor α ε σ} {start : σ} (hs : Strategy.ofValue strategy = .ok s)
    (hroot : Plan.rootIssues s root ≠ []) :
    traverse root v start strategy
      = { outcome := .error (IncludesErrors.ofError (.unsuitedStrategy (Plan.rootIssues s root)))
          state := start } := by
  let config : Config := { strategy := .strategy s }
  have hcreate : Plan.create config root = .error (.unsuitedStrategy (Plan.rootIssues s root)) :=
    Plan.create_of_unsuited rfl Glyphs.issues_boxDrawing hroot
  unfold traverse
  rw [hs]
  exact Plan.perform_of_error hcreate v start

theorem collect_of_yields (hs : Strategy.ofValue strategy = .ok s)
    (hroot : Plan.rootIssues s root = []) {data : List α} (h : (s.scriptOf root).Yields data) :
    (collect root strategy).outcome = .ok data := by
  have hwalk := (Collecting.walk_visitor_eq_ok_iff (ε := Error) s root _).mpr ⟨h.1, rfl⟩
  rcases traverse_of_ok hs hroot hwalk rfl with ⟨houtcome, hstate⟩
  unfold collect Run.answering Run.map
  rw [houtcome, hstate, Collecting.visited_ofCalls]
  exact congrArg Except.ok h.2

theorem renderFlat_of_yields {root : Option (Node Value)} (hs : Strategy.ofValue strategy = .ok s)
    (hroot : Plan.rootIssues s root = []) {data : List Value} (h : (s.scriptOf root).Yields data)
    (separator : Value) :
    (renderFlat root strategy separator).outcome = .ok (Plain.listing separator data) := by
  let start : Plain := { separator := separator }
  have hwalk : s.walk (Plain.visitor : Visitor Value Error Plain) root start
      = .ok () (start.writing data) := by
    rw [Strategy.walk_eq_follow, Visitor.follow_eq_ok_iff, ← h.2]
    exact ⟨h.1, Plain.replay_visitor _ _⟩
  rcases traverse_of_ok hs hroot hwalk rfl with ⟨houtcome, hstate⟩
  unfold renderFlat Run.answering Run.map
  rw [houtcome, hstate]
  exact congrArg Except.ok String.empty_append

end Traverse

end TreeTraversal
