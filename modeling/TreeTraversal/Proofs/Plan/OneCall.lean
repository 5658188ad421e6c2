import TreeTraversal.Proofs.Drawing.Appending
import TreeTraversal.Proofs.Drawing.Rendering
import TreeTraversal.Proofs.Plan.Listing
import TreeTraversal.Proofs.Visitor.Levels
import TreeTraversal.Proofs.Walk.Stack

/-!
# Functions that agree

The functions that do all in one call make their own configuration, plan and visitor. What they answer is
one and the same thing all the same: which hooks a strategy calls on a tree, or why it does not come to
the end. And what they refuse, they refuse before anything has happened.
-/

namespace TreeTraversal

/-- Errors by which a call refuses what it was asked for: those of configurations and strategies that do
not fit, which are capability mismatches, and those of values that cannot be used. -/
def Error.isRefusal : Error → Bool
  | .invalidConfig _ | .unsuitedStrategy _ => true
  | .unknownStrategy _ | .duplicateKey _ => true
  | _ => false

/-! ## 1. What is asked for -/

section Asked

variable {α β ε σ : Type} {root : Option (Node α)} {strategy : Value} {s : Strategy}

/-- The hooks that are called where a tree is to be walked by a strategy, if the strategy is known and
suits the tree, and its walk has no fault. -/
def hooksAsked (root : Option (Node α)) (strategy : Value) : Except Error (List (Event (Node α))) := do
  let s ← Strategy.ofValue strategy
  match Plan.rootIssues s root, (s.scriptOf root).fault with
  | [], none => .ok (s.scriptOf root).calls
  | [], some e => .error e
  | issues, _ => .error (.unsuitedStrategy issues)

theorem hooksAsked_of_error {e : Error} (hs : Strategy.ofValue strategy = .error e) :
    hooksAsked root strategy = .error e := by
  unfold hooksAsked
  rw [hs]
  rfl

theorem hooksAsked_of_known (hs : Strategy.ofValue strategy = .ok s) :
    hooksAsked root strategy =
      match Plan.rootIssues s root, (s.scriptOf root).fault with
      | [], none => .ok (s.scriptOf root).calls
      | [], some e => .error e
      | issues, _ => .error (.unsuitedStrategy issues) := by
  unfold hooksAsked
  rw [hs]
  rfl

theorem hooksAsked_of_suited (hs : Strategy.ofValue strategy = .ok s)
    (hroot : Plan.rootIssues s root = []) :
    hooksAsked root strategy =
      match (s.scriptOf root).fault with
      | none => .ok (s.scriptOf root).calls
      | some e => .error e := by
  rw [hooksAsked_of_known hs, hroot]
  cases (s.scriptOf root).fault <;> rfl

theorem hooksAsked_of_unsuited (hs : Strategy.ofValue strategy = .ok s)
    (hroot : Plan.rootIssues s root ≠ []) :
    hooksAsked root strategy = .error (.unsuitedStrategy (Plan.rootIssues s root)) := by
  rw [hooksAsked_of_known hs]
  cases hissues : Plan.rootIssues s root with
  | nil => exact absurd hissues hroot
  | cons issue rest => rfl

variable [IncludesErrors ε]

theorem traverse_of_unknown {e : Error} (hs : Strategy.ofValue strategy = .error e)
    (v : Visitor α ε σ) (start : σ) :
    traverse root v start strategy
      = { outcome := .error (IncludesErrors.ofError e), state := start } := by
  unfold traverse
  rw [hs]

theorem traverse_of_walk_error {v : Visitor α ε σ} {start s' : σ} {e : ε}
    (hs : Strategy.ofValue strategy = .ok s) (hroot : Plan.rootIssues s root = [])
    (hwalk : s.walk v root start = .error e s') :
    (traverse root v start strategy).outcome = .error e := by
  have hcreate : Plan.create { strategy := .strategy s } root
      = .ok (Plan.fresh { strategy := .strategy s } root s) :=
    Plan.create_of_suited rfl Glyphs.issues_boxDrawing hroot
  unfold traverse
  rw [hs]
  exact (Plan.perform_of_walk_error hcreate hwalk).1

/-- Whether a visitor takes any hooks without an error and never minds its balance. -/
structure Visitor.Obliges (v : Visitor α ε σ) (start : σ) (left : List (Event (Node α)) → σ) :
    Prop where
  replay_eq : ∀ calls, v.replay calls start = .ok () (left calls)
  isBalanced : ∀ s, v.isBalanced s = true

/-- A call with such a visitor fails just as it is asked for something that fails, and otherwise leaves
the visitor as the hooks leave it. -/
theorem traverse_of_obliges {v : Visitor α Error σ} {start : σ} {left : List (Event (Node α)) → σ}
    (h : v.Obliges start left) (root : Option (Node α)) (strategy : Value) :
    (traverse root v start strategy).outcome = (hooksAsked root strategy).map Plan.visits ∧
      ∀ calls, hooksAsked root strategy = .ok calls →
        (traverse root v start strategy).state = left calls := by
  cases hs : Strategy.ofValue strategy with
  | error e =>
    rw [hooksAsked_of_error hs, traverse_of_unknown hs]
    exact ⟨rfl, nofun⟩
  | ok s =>
    by_cases hroot : Plan.rootIssues s root = []
    · have hasked := hooksAsked_of_suited hs hroot
      have hreplay := h.replay_eq (s.scriptOf root).calls
      cases hfault : (s.scriptOf root).fault with
      | none =>
        rw [hfault] at hasked
        have hwalk : s.walk v root start = .ok () (left (s.scriptOf root).calls) := by
          rw [Strategy.walk_eq_follow, Visitor.follow_eq_ok_iff]
          exact ⟨hfault, hreplay⟩
        obtain ⟨houtcome, hstate⟩ := traverse_of_ok hs hroot hwalk (h.isBalanced _)
        rw [houtcome, hstate, hasked]
        refine ⟨rfl, fun calls hcalls => ?_⟩
        cases hcalls
        rfl
      | some e =>
        rw [hfault] at hasked
        have hwalk : s.walk v root start = .error e (left (s.scriptOf root).calls) := by
          rw [Strategy.walk_eq_follow, Visitor.follow_eq_error_iff]
          exact .inr ⟨hreplay, by rw [hfault]; rfl⟩
        rw [traverse_of_walk_error hs hroot hwalk, hasked]
        exact ⟨rfl, nofun⟩
    · rw [hooksAsked_of_unsuited hs hroot, traverse_of_unsuited hs hroot]
      exact ⟨rfl, nofun⟩

theorem answering_of_obliges {v : Visitor α Error σ} {start : σ} {left : List (Event (Node α)) → σ}
    (h : v.Obliges start left) (root : Option (Node α)) (strategy : Value) (answer : σ → β) :
    ((traverse root v start strategy).answering answer).outcome
      = (hooksAsked root strategy).map fun calls => answer (left calls) := by
  obtain ⟨houtcome, hstate⟩ := traverse_of_obliges h root strategy
  show (traverse root v start strategy).outcome.map
    (fun _ => answer (traverse root v start strategy).state) = _
  rw [houtcome]
  cases hasked : hooksAsked root strategy with
  | error e => rfl
  | ok calls =>
    rw [hstate calls hasked]
    rfl

-- Faults of a walk's own are missing links, so that what is refused is refused before the walk.
theorem traverse_of_refusal {e : Error} (he : e.isRefusal = true)
    (hasked : hooksAsked root strategy = .error e) (v : Visitor α ε σ) (start : σ) :
    traverse root v start strategy
      = { outcome := .error (IncludesErrors.ofError e), state := start } := by
  cases hs : Strategy.ofValue strategy with
  | error e' =>
    rw [hooksAsked_of_error hs, Except.error.injEq] at hasked
    rw [traverse_of_unknown hs, hasked]
  | ok s =>
    by_cases hroot : Plan.rootIssues s root = []
    · rw [hooksAsked_of_suited hs hroot] at hasked
      cases hfault : (s.scriptOf root).fault with
      | none =>
        rw [hfault] at hasked
        cases hasked
      | some e' =>
        rw [hfault, Except.error.injEq] at hasked
        obtain ⟨shape, link, rfl⟩ := (s.bracketed_scriptOf root).fault_eq e' hfault
        rw [← hasked] at he
        cases he
    · rw [hooksAsked_of_unsuited hs hroot, Except.error.injEq] at hasked
      rw [traverse_of_unsuited hs hroot, hasked]

end Asked

theorem Collecting.obliges {α : Type} :
    (visitor : Visitor α Error (Collecting α)).Obliges {} ofCalls where
  replay_eq calls := by
    rw [replay_visitor, ofCalls]
    simp
  isBalanced _ := rfl

theorem Plain.obliges (start : Plain) :
    (visitor : Visitor Value Error Plain).Obliges start
      fun calls => start.writing ((calls.filterMap Event.subject?).map Node.data) where
  replay_eq calls := replay_visitor calls start
  isBalanced _ := rfl

theorem collect_eq_hooksAsked {α : Type} (root : Option (Node α)) (strategy : Value) :
    (collect root strategy).outcome
      = (hooksAsked root strategy).map fun calls => (calls.filterMap Event.subject?).map Node.data := by
  unfold collect
  rw [answering_of_obliges Collecting.obliges]
  simp only [Collecting.visited_ofCalls]

theorem renderFlat_eq_hooksAsked (root : Option (Node Value)) (strategy separator : Value) :
    (renderFlat root strategy separator).outcome = (hooksAsked root strategy).map fun calls =>
      Plain.listing separator ((calls.filterMap Event.subject?).map Node.data) := by
  have hempty : ∀ text : String, "" ++ text = text := fun text => String.empty_append
  unfold renderFlat
  rw [answering_of_obliges (Plain.obliges _)]
  simp only [Plain.writing, Sink.contents_write, hempty]

/-! ## 2. Drawing -/

section Drawing

variable {root : Option (Node Value)} {g : Glyphs}

/-- The configuration under which a tree is drawn. -/
def drawingConfig (root : Option (Node Value)) (g : Glyphs) : Config :=
  { strategy := .strategy (directoryStrategy root), glyphs := g }

theorem writeTree_eq (root : Option (Node Value)) (sink : Sink) (g : Glyphs) :
    writeTree root sink g
      = (Plan.perform (drawingConfig root g) root Directory.visitor
          { sink := sink, glyphs := g }).mapState (·.sink) :=
  rfl

-- Neither a hook nor the walk itself fails by an error that is a refusal.
theorem Directory.walk_not_refusal (s : Strategy) (root : Option (Node Value)) :
    FailsOnlyBy (fun e => e.isRefusal = false)
      (s.walk (visitor : Visitor Value Error Directory) root) := by
  rw [Strategy.walk_eq_follow]
  apply failsOnlyBy_follow
  · intro event
    cases event with
    | visit n =>
      intro d d' e h
      cases draw_fault n d d' e h <;> rfl
    | enter => exact failsOnlyBy_modify _
    | leave =>
      refine failsOnlyBy_bind failsOnlyBy_get fun d => ?_
      by_cases hdepth : d.depth = 0
      · rw [if_pos hdepth]
        exact failsOnlyBy_raise rfl
      · rw [if_neg hdepth]
        exact failsOnlyBy_modify _
  · intro e he
    obtain ⟨shape, link, rfl⟩ := (s.bracketed_scriptOf root).fault_eq e he
    rfl

theorem Plan.conclude_not_refusal {config : Config} {visitor : String} {isBalanced : Bool} {e : Error}
    (h : conclude config visitor isBalanced = .error e) : e.isRefusal = false := by
  by_cases hstrategy : ∃ t, config.strategy = .strategy t
  · obtain ⟨t, ht⟩ := hstrategy
    rw [conclude_of_strategy ht] at h
    split at h <;> cases h
    rfl
  · rw [conclude_of_no_strategy fun t ht => hstrategy ⟨t, ht⟩] at h
    cases h
    rfl

theorem Plan.execute_not_refusal {p : Plan Value} {d : Directory} {e : Error}
    (h : (p.execute (Directory.visitor : Visitor Value Error Directory) d).outcome = .error e) :
    e.isRefusal = false := by
  cases hwalk : p.chosen.walk (Directory.visitor : Visitor Value Error Directory) p.root d with
  | error e' d' =>
    rw [execute_of_error hwalk] at h
    cases h
    exact Directory.walk_not_refusal p.chosen p.root d d' _ hwalk
  | ok u d' =>
    rw [(execute_of_ok hwalk).2] at h
    split at h
    · cases h
    · cases h
      exact conclude_not_refusal ‹_›

theorem create_of_refusal {sink : Sink} {e : Error} (he : e.isRefusal = true)
    (h : (writeTree root sink g).outcome = .error e) :
    Plan.create (drawingConfig root g) root = .error e := by
  rw [writeTree_eq] at h
  cases hcreate : Plan.create (drawingConfig root g) root with
  | error e' =>
    rw [Plan.perform_of_error hcreate] at h
    cases h
    rfl
  | ok p =>
    simp only [Plan.perform, hcreate, Run.mapState] at h
    rw [Plan.execute_not_refusal h] at he
    cases he

-- A drawing that is completed counts the visits of its walk.
theorem writeTree_count {sink : Sink} {count : Nat} (h : (writeTree root sink g).outcome = .ok count) :
    count = ((directoryStrategy root).nodesTold root).length := by
  let v : Visitor Value Error Directory := Directory.visitor
  rw [writeTree_eq] at h
  cases hcreate : Plan.create (drawingConfig root g) root with
  | error e =>
    rw [Plan.perform_of_error hcreate] at h
    cases h
  | ok p =>
    have hp := Plan.eq_fresh_of_create rfl hcreate
    simp only [Plan.perform, hcreate, Run.mapState] at h
    rw [Strategy.nodesTold_eq]
    cases hwalk : p.chosen.walk v p.root { sink := sink, glyphs := g } with
    | error e d =>
      rw [Plan.execute_of_error hwalk] at h
      cases h
    | ok u d =>
      rw [(Plan.execute_of_ok hwalk).2] at h
      split at h
      · cases h
        rw [hp]
        rfl
      · cases h

theorem writeTree_of_refusal {e : Error} (hcreate : Plan.create (drawingConfig root g) root = .error e)
    (sink : Sink) : writeTree root sink g = { outcome := .error e, state := sink } := by
  rw [writeTree_eq, Plan.perform_of_error hcreate]
  rfl

theorem renderTree_outcome (root : Option (Node Value)) (g : Glyphs) :
    (renderTree root g).outcome
      = (writeTree root {} g).outcome.map fun _ => (writeTree root {} g).state.contents :=
  rfl

theorem writeTree_outcome (root : Option (Node Value)) (sink : Sink) (g : Glyphs) :
    (writeTree root sink g).outcome
      = (renderTree root g).outcome.map
          fun _ => ((directoryStrategy root).nodesTold root).length := by
  rw [renderTree_outcome, writeTree_behind root sink g]
  show (writeTree root {} g).outcome = _
  cases houtcome : (writeTree root {} g).outcome with
  | error e => rfl
  | ok count => exact congrArg Except.ok (writeTree_count houtcome)

theorem writeTree_contents {text : String} (h : (renderTree root g).outcome = .ok text) (sink : Sink) :
    (writeTree root sink g).state.contents = sink.contents ++ text := by
  rw [renderTree_outcome] at h
  rw [writeTree_behind root sink g]
  show sink.contents ++ (writeTree root {} g).state.contents = _
  cases houtcome : (writeTree root {} g).outcome with
  | error e =>
    rw [houtcome] at h
    cases h
  | ok count =>
    rw [houtcome] at h
    exact congrArg (sink.contents ++ ·) (Except.ok.inj h)

end Drawing

/-! ## 3. Agreement -/

-- Whoever answers with something made of a result fails only by the error in its place.
theorem eq_error_of_map_eq_error {ε β γ : Type} {f : β → γ} {x : Except ε β} {e : ε}
    (h : x.map f = .error e) : x = .error e := by
  cases x with
  | error e' =>
    cases h
    rfl
  | ok b => cases h

/-- **The functions that do all in one call agree.** On every tree and for everything that is given as a
strategy, `collect`, `renderFlat` and `traverse` with a collecting visitor fail with the same error or
all answer: then the count is the length of the list that is collected, and the text is that of its
items, each with the separator behind it. For every tree and all glyphs, `writeTree`, `printTree` and
`renderTree` fail with the same error or all answer: then what was in the sink has the rendered text
behind it, and the count is the number of visited nodes. Where they refuse what they are asked for, no
hook of any visitor is called, and nothing is written. -/
theorem one_call_functions_agree (root : Option (Node Value)) :
    (∀ strategy separator : Value,
      let collected := (collect root strategy).outcome
      (traverse root (Collecting.visitor : Visitor Value Error (Collecting Value)) {} strategy).outcome
        = collected.map List.length ∧
      (renderFlat root strategy separator).outcome = collected.map (Plain.listing separator) ∧
      ∀ e, collected = .error e → e.isRefusal = true →
        ∀ (σ : Type) (v : Visitor Value Error σ) (start : σ),
          traverse root v start strategy = { outcome := .error e, state := start }) ∧
    ∀ (g : Glyphs) (sink : Sink),
      let rendered := (renderTree root g).outcome
      (writeTree root sink g).outcome
        = rendered.map (fun _ => ((directoryStrategy root).nodesTold root).length) ∧
      (printTree root sink g).outcome = rendered.map (fun _ => ()) ∧
      (∀ text, rendered = .ok text →
        (writeTree root sink g).state.contents = sink.contents ++ text ∧
          (printTree root sink g).state.contents = sink.contents ++ text) ∧
      ∀ e, rendered = .error e → e.isRefusal = true →
        writeTree root sink g = { outcome := .error e, state := sink } ∧
          printTree root sink g = { outcome := .error e, state := sink } ∧
          ∀ (σ : Type) (v : Visitor Value Error σ) (start : σ),
            Plan.perform (drawingConfig root g) root v start
              = { outcome := .error e, state := start } := by
  constructor
  · intro strategy separator collected
    have hcollected : collected = _ := collect_eq_hooksAsked root strategy
    refine ⟨?_, ?_, ?_⟩
    · rw [(traverse_of_obliges Collecting.obliges root strategy).1, hcollected]
      cases hooksAsked root strategy with
      | error e => rfl
      | ok calls => exact congrArg Except.ok (List.length_map _).symm
    · rw [renderFlat_eq_hooksAsked, hcollected]
      cases hooksAsked root strategy <;> rfl
    · intro e he hrefusal σ v start
      have hasked := eq_error_of_map_eq_error (hcollected.symm.trans he)
      exact traverse_of_refusal hrefusal hasked v start
  · intro g sink rendered
    have hwritten := writeTree_outcome root sink g
    refine ⟨hwritten, ?_, fun text h => ⟨writeTree_contents h sink, writeTree_contents h sink⟩, ?_⟩
    · show (writeTree root sink g).outcome.map (fun _ => ())
        = (renderTree root g).outcome.map fun _ => ()
      rw [hwritten]
      cases (renderTree root g).outcome <;> rfl
    · intro e he hrefusal
      have herror : (writeTree root sink g).outcome = .error e := by
        have hrendered : (renderTree root g).outcome = .error e := he
        rw [hwritten, hrendered]
        rfl
      have hcreate := create_of_refusal hrefusal herror
      have hwrites := writeTree_of_refusal hcreate sink
      refine ⟨hwrites, ?_, fun σ v start => Plan.perform_of_error hcreate v start⟩
      show (writeTree root sink g).map (fun _ => ()) = _
      rw [hwrites]
      rfl

/-- Glyphs of which one is empty. -/
def noPipe : Glyphs :=
  { pipe := some "" }

/-- Texts of one character each. -/
def asciiTexts : GlyphTexts := ⟨"\x60", "+", "|", " "⟩

theorem outline_one_call_outcomes :
    (traverse (some Node.outline) (Collecting.visitor : Visitor Value Error (Collecting Value)) {}
        (.strategy .siblingPreOrder)).outcome = .ok 4 ∧
      (renderFlat (some Node.outline) (.strategy .siblingPreOrder) (.str "-")).outcome
        = .ok "r-a-b-c-" ∧
      (∀ (σ : Type) (v : Visitor Value Error σ) (start : σ),
        traverse (some Node.outline) v start (.strategy .preOrder)
          = { outcome := .error (.unsuitedStrategy [.hiddenChildren .preOrder]), state := start }) ∧
      (printTree (some Node.outline) ⟨"x"⟩ .ascii).state.contents
        = "x" ++ "r\n+a\n|\x60b\n\x60c\n" ∧
      writeTree (some Node.outline) ⟨"x"⟩ noPipe
        = { outcome := .error (.invalidConfig [.emptyGlyph .pipe]), state := ⟨"x"⟩ } := by
  obtain ⟨hlists, hdrawings⟩ := one_call_functions_agree (some Node.outline)
  -- the walk is evaluated by its script, which is opened node by node
  have hscript : ∀ (data : Value) (f s : Option (Node Value)),
      (Node.linked data f s).siblingScript = _ := fun _ _ _ => Node.siblingScript_of_linked rfl
  have hyields : (Strategy.siblingPreOrder.scriptOf (some Node.outline)).Yields
      [.str "r", .str "a", .str "b", .str "c"] := by
    simp only [Script.Yields, Strategy.scriptOf, Strategy.script, Node.outline, hscript,
      Node.offspring, Node.chain, List.map_cons, List.map_nil]
    exact ⟨rfl, rfl⟩
  have hcollected : (collect (some Node.outline) (.strategy .siblingPreOrder)).outcome
      = .ok [.str "r", .str "a", .str "b", .str "c"] := collect_of_yields rfl rfl hyields
  have hlisting : Plain.listing (.str "-") [.str "r", .str "a", .str "b", .str "c"]
      = "r-a-b-c-" := rfl
  have hvisible : asciiTexts.Visible := by
    unfold GlyphTexts.Visible
    decide
  have hlines : (Node.outline.placements []).map asciiTexts.line
      = ["r\n", "+a\n", "|\x60b\n", "\x60c\n"] := by
    simp only [Node.outline, Node.placements_eq, Node.offspring, Node.chain, List.flatMap_cons,
      List.flatMap_nil, List.map_cons, List.map_nil, List.append_nil, List.nil_append,
      List.cons_append]
    decide
  have hrendered : (renderTree (some Node.outline) .ascii).outcome
      = .ok (asciiTexts.drawing Node.outline) := by
    have hglyphs : Glyphs.ascii = asciiTexts.glyphs := rfl
    rw [hglyphs]
    exact renderTree_of_drawable hvisible (Directory.drawable_of_linked Node.uniform_outline)
  obtain ⟨hcount, hflat, -⟩ := hlists (.strategy .siblingPreOrder) (.str "-")
  obtain ⟨-, -, hunsuited⟩ := hlists (.strategy .preOrder) (.str "-")
  obtain ⟨-, -, hcontents, -⟩ := hdrawings .ascii ⟨"x"⟩
  obtain ⟨-, -, -, hrefused⟩ := hdrawings noPipe ⟨"x"⟩
  rw [hcollected] at hcount hflat
  refine ⟨?_, ?_, ?_, ?_, ?_⟩
  · rw [hcount]
    rfl
  · rw [hflat, Except.map, hlisting]
  · exact hunsuited (.unsuitedStrategy [.hiddenChildren .preOrder]) rfl rfl
  · rw [(hcontents _ hrendered).2, GlyphTexts.drawing, hlines]
    decide
  · exact (hrefused (.invalidConfig [.emptyGlyph .pipe]) rfl rfl).1

end TreeTraversal
