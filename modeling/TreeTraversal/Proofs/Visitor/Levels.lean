import TreeTraversal.Proofs.Drawing.Indent
import TreeTraversal.Proofs.Visitor.Watched
import TreeTraversal.Proofs.Walk.Nesting
import TreeTraversal.Visitor.Recording

/-!
# Levels that visitors keep

Directory visitors and recording visitors count the levels that are open. Hooks that nest leave the
count as it was, at any depth and after any history, and the indent of a directory visitor with it.
-/

namespace TreeTraversal

/-! ## 1. How steps fail -/

section Failures

variable {ε σ β γ : Type} {P : ε → Prop}

/-- Whether a step fails with nothing but such errors. -/
def FailsOnlyBy (P : ε → Prop) (x : EStateM ε σ β) : Prop :=
  ∀ s s' e, x s = .error e s' → P e

theorem failsOnlyBy_bind {x : EStateM ε σ β} {next : β → EStateM ε σ γ} (hx : FailsOnlyBy P x)
    (hnext : ∀ b, FailsOnlyBy P (next b)) : FailsOnlyBy P (x >>= next) := by
  intro s s' e h
  cases hrun : x s with
  | ok b s₁ =>
    rw [bind_of_ok hrun] at h
    exact hnext b _ _ _ h
  | error e₁ s₁ =>
    rw [bind_of_error hrun] at h
    cases h
    exact hx _ _ _ hrun

theorem failsOnlyBy_get : FailsOnlyBy P (get : EStateM ε σ σ) :=
  nofun

theorem failsOnlyBy_modify (f : σ → σ) : FailsOnlyBy P (modify f : EStateM ε σ Unit) :=
  nofun

theorem failsOnlyBy_raise [IncludesErrors ε] {f : Error} (h : P (IncludesErrors.ofError f)) :
    FailsOnlyBy P (Error.raise f : EStateM ε σ β) := by
  intro s s' e he
  cases he
  exact h

theorem failsOnlyBy_check [IncludesErrors ε] {r : Except Error β}
    (h : ∀ e, r = .error e → P (IncludesErrors.ofError e)) :
    FailsOnlyBy P (Error.check r : EStateM ε σ β) := by
  cases r with
  | ok b => exact nofun
  | error f => exact failsOnlyBy_raise (h f rfl)

-- A walk fails as one of the hooks does, or by a fault of its own.
theorem failsOnlyBy_follow [IncludesErrors ε] {α : Type} {v : Visitor α ε σ} {script : Script α}
    (hhooks : ∀ event, FailsOnlyBy P (v.handle event))
    (hfault : ∀ e, script.fault = some e → P (IncludesErrors.ofError e)) :
    FailsOnlyBy P (v.follow script) := by
  have hreplay : ∀ calls, FailsOnlyBy P (v.replay calls) := by
    intro calls
    induction calls with
    | nil =>
      intro s s' e h
      cases h
    | cons event rest ih => exact failsOnlyBy_bind (hhooks event) fun _ => ih
  intro s s' e h
  rw [Visitor.follow_eq_error_iff] at h
  obtain h | ⟨-, h⟩ := h
  · exact hreplay _ s s' e h
  · obtain ⟨f, hf, rfl⟩ := Option.map_eq_some_iff.mp h
    exact hfault f hf

end Failures

/-! ## 2. Directory visitors -/

namespace Directory

/-- Both have the same glyphs, and the same levels open with the same pieces of indent. -/
structure SameLevels (d d' : Directory) : Prop where
  glyphs_eq : d'.glyphs = d.glyphs
  depth_eq : d'.depth = d.depth
  segments_eq : d'.segments = d.segments

theorem SameLevels.trans {d₁ d₂ d₃ : Directory} (h : SameLevels d₁ d₂) (h' : SameLevels d₂ d₃) :
    SameLevels d₁ d₃ :=
  ⟨h'.glyphs_eq.trans h.glyphs_eq, h'.depth_eq.trans h.depth_eq,
    h'.segments_eq.trans h.segments_eq⟩

theorem SameLevels.aligned {glyphs : Glyphs} {d d' : Directory} (h : SameLevels d d')
    (hd : Aligned glyphs d) : Aligned glyphs d' := by
  refine ⟨h.glyphs_eq.trans hd.glyphs_eq, ?_⟩
  rw [h.segments_eq, h.depth_eq]
  exact hd.length_segments

theorem sameLevels_draw (n : Node Value) (d : Directory) :
    SameLevels d (stateLeft (draw n : EStateM Error Directory Unit) d) := by
  have hkeeps : Keeps (SameLevels d) (draw n : EStateM Error Directory Unit) :=
    keeps_draw (fun _ _ _ h => ⟨h.glyphs_eq, h.depth_eq, h.segments_eq⟩) n
  exact hkeeps d ⟨rfl, rfl, rfl⟩

/-- What can go wrong while a node is drawn: it does not know its siblings, or a glyph is absent. -/
inductive DrawFault : Error → Prop
  | noSiblingOrder (shape : Shape) : DrawFault (.noSiblingOrder shape)
  | absentSegment (position : Nat) : DrawFault (.absentSegment position)
  | notText (kind : Kind) : DrawFault (.notText kind)

theorem joinSegments_fault (position : Nat) (segments : List (Option String)) :
    ∀ e, joinSegments position segments = .error e → DrawFault e := by
  induction segments generalizing position with
  | nil => nofun
  | cons segment rest ih =>
    intro e h
    cases segment with
    | none =>
      cases h
      exact .absentSegment position
    | some text =>
      -- the error is the one of the pieces further in
      rw [joinSegments] at h
      cases hrest : joinSegments (position + 1) rest with
      | ok joined =>
        rw [hrest] at h
        cases h
      | error f =>
        rw [hrest] at h
        cases h
        exact ih _ _ hrest

theorem indent_fault (d : Directory) : ∀ e, d.indent = .error e → DrawFault e :=
  joinSegments_fault 0 d.segments.reverse

theorem branch_fault (d : Directory) (isLast : Bool) :
    ∀ e, d.branch isLast = .error e → DrawFault e := by
  intro e h
  unfold branch at h
  split at h
  · cases h
  · split at h <;> cases h
    exact .notText _

theorem draw_fault (n : Node Value) :
    FailsOnlyBy DrawFault (draw n : EStateM Error Directory Unit) := by
  have hlast : ∀ e, n.isLastChild = .error e → DrawFault e := by
    intro e h
    cases n <;> cases h
    exact .noSiblingOrder _
  -- only three of the steps can fail
  refine failsOnlyBy_bind (failsOnlyBy_check hlast) fun isLast => ?_
  refine failsOnlyBy_bind failsOnlyBy_get fun d => ?_
  refine failsOnlyBy_bind (failsOnlyBy_check d.indent_fault) fun indent => ?_
  refine failsOnlyBy_bind (failsOnlyBy_modify _) fun _ => ?_
  refine failsOnlyBy_bind failsOnlyBy_get fun d => ?_
  refine failsOnlyBy_bind (failsOnlyBy_check (d.branch_fault isLast)) fun branch => ?_
  refine failsOnlyBy_bind (failsOnlyBy_modify _) fun _ => ?_
  exact failsOnlyBy_modify _

/-- A step that leaves the levels as they are if it succeeds, and that does not fail by leaving a level
that was not entered. -/
structure NeutralAt (d : Directory) (step : EStateM Error Directory Unit) : Prop where
  sameLevels : ∀ d', step d = .ok () d' → SameLevels d d'
  ne_unmatchedLeave : ∀ e d', step d = .error e d' → e ≠ .unmatchedLeave

theorem neutralAt_pure (d : Directory) : NeutralAt d (pure ()) := by
  constructor
  · intro d' h
    cases h
    exact ⟨rfl, rfl, rfl⟩
  · intro e d' h
    cases h

theorem neutralAt_draw (n : Node Value) (d : Directory) : NeutralAt d (draw n) := by
  constructor
  · intro d' h
    have hsame := sameLevels_draw n d
    rwa [stateLeft_of_ok h] at hsame
  · rintro e d' h rfl
    cases draw_fault n d d' _ h

theorem NeutralAt.bind {d : Directory} {x next : EStateM Error Directory Unit} (hx : NeutralAt d x)
    (hnext : ∀ d', SameLevels d d' → NeutralAt d' next) : NeutralAt d (do x; next) := by
  cases hrun : x d with
  | ok u d₁ =>
    have hsame := hx.sameLevels d₁ hrun
    have hthen := hnext d₁ hsame
    constructor
    · intro d' h
      rw [bind_of_ok hrun] at h
      exact hsame.trans (hthen.sameLevels d' h)
    · intro e d' h
      rw [bind_of_ok hrun] at h
      exact hthen.ne_unmatchedLeave e d' h
  | error e₁ d₁ =>
    constructor
    · intro d' h
      rw [bind_of_error hrun] at h
      cases h
    · intro e d' h
      rw [bind_of_error hrun] at h
      cases h
      exact hx.ne_unmatchedLeave _ _ hrun

-- The first level adds no piece of indent and the others add one; either way `leave` takes away just
-- what `enter` has added.
theorem sameLevels_leave {glyphs : Glyphs} {d d' : Directory} (hd : Aligned glyphs d)
    (h : SameLevels (enter d) d') : SameLevels d (leave d') := by
  have hdepth : d'.depth = d.depth + 1 := h.depth_eq
  refine ⟨h.glyphs_eq, ?_, ?_⟩
  · show d'.depth - 1 = d.depth
    omega
  · show (if d'.depth - 1 = 0 then [] else d'.segments.tail) = d.segments
    rw [h.segments_eq, hdepth, Nat.add_sub_cancel]
    by_cases hzero : d.depth = 0
    · have hlength : d.segments.length = 0 := by
        have := hd.length_segments
        omega
      rw [if_pos hzero, List.eq_nil_of_length_eq_zero hlength]
    · simp only [enter, hzero, if_false, List.tail_cons]

theorem neutralAt_level {glyphs : Glyphs} {d : Directory} {inner : EStateM Error Directory Unit}
    (hd : Aligned glyphs d) (hinner : NeutralAt (enter d) inner) :
    NeutralAt d (do modify enter; inner; tryLeave) := by
  cases hrun : inner (enter d) with
  | ok u d₁ =>
    have hsame := hinner.sameLevels d₁ hrun
    -- the level that is left is the one that was entered
    have hopen : d₁.depth ≠ 0 := by
      have hdepth : d₁.depth = d.depth + 1 := hsame.depth_eq
      omega
    have hlevel : (do modify enter; inner; tryLeave : EStateM Error Directory Unit) d
        = .ok () (leave d₁) := by
      rw [modify_bind, bind_of_ok hrun, tryLeave_of_open hopen]
    constructor
    · intro d' h
      rw [hlevel] at h
      cases h
      exact sameLevels_leave hd hsame
    · intro e d' h
      rw [hlevel] at h
      cases h
  | error e₁ d₁ =>
    have hlevel : (do modify enter; inner; tryLeave : EStateM Error Directory Unit) d
        = .error e₁ d₁ := by
      rw [modify_bind, bind_of_error hrun]
    constructor
    · intro d' h
      rw [hlevel] at h
      cases h
    · intro e d' h
      rw [hlevel] at h
      cases h
      exact hinner.ne_unmatchedLeave _ _ hrun

theorem neutralAt_replay {calls : List (Event (Node Value))} (h : Nested calls) {glyphs : Glyphs}
    {d : Directory} (hd : Aligned glyphs d) :
    NeutralAt d ((visitor : Visitor Value Error Directory).replay calls) := by
  induction h generalizing d with
  | nil => exact neutralAt_pure d
  | visit n _ ih =>
    rw [Visitor.replay]
    exact (neutralAt_draw n d).bind fun d' hsame => ih (hsame.aligned hd)
  | @level inner rest _ _ ihinner ihrest =>
    have hsplit : (visitor : Visitor Value Error Directory).replay (.enter :: (inner ++ .leave :: rest))
        = (do (do modify enter; visitor.replay inner; tryLeave); visitor.replay rest) := by
      rw [Visitor.replay, Visitor.replay_append, bind_assoc]
      simp only [bind_assoc]
      rfl
    rw [hsplit]
    have hlevel := neutralAt_level hd (ihinner (aligned_enter hd))
    exact hlevel.bind fun d' hsame => ihrest (hsame.aligned hd)

theorem neutralAt_follow {script : Script Value} (h : script.Bracketed) {glyphs : Glyphs}
    {d : Directory} (hd : Aligned glyphs d) :
    NeutralAt d ((visitor : Visitor Value Error Directory).follow script) := by
  constructor
  · intro d' hrun
    obtain ⟨hfault, hreplay⟩ := (Visitor.follow_eq_ok_iff _ _ _ _).mp hrun
    exact (neutralAt_replay (h.nested hfault) hd).sameLevels d' hreplay
  · intro e d' hrun
    obtain hreplay | ⟨-, hfault⟩ := (Visitor.follow_eq_error_iff _ _ _ _ _).mp hrun
    · -- the hook that fails would fail the same way if all levels were closed after it
      obtain ⟨rest, hrest⟩ := h.completed
      apply (neutralAt_replay hrest hd).ne_unmatchedLeave e d'
      rw [Visitor.replay_append, bind_of_error hreplay]
    · obtain ⟨f, hf, rfl⟩ := Option.map_eq_some_iff.mp hfault
      obtain ⟨shape, link, rfl⟩ := h.fault_eq f hf
      nofun

end Directory

/-! ## 3. Recording visitors -/

namespace Recording

variable {α ε : Type}

/-- The depth is below zero only after an underflow. -/
def Sound (r : Recording α) : Prop :=
  0 ≤ r.depth ∨ r.underflow = true

/-- Both have the same number of levels open, and both or neither had an underflow. -/
structure SameLevels (r r' : Recording α) : Prop where
  depth_eq : r'.depth = r.depth
  underflow_eq : r'.underflow = r.underflow

theorem SameLevels.trans {r₁ r₂ r₃ : Recording α} (h : SameLevels r₁ r₂) (h' : SameLevels r₂ r₃) :
    SameLevels r₁ r₃ :=
  ⟨h'.depth_eq.trans h.depth_eq, h'.underflow_eq.trans h.underflow_eq⟩

theorem SameLevels.sound {r r' : Recording α} (h : SameLevels r r') (hr : Sound r) : Sound r' := by
  unfold Sound
  rwa [h.depth_eq, h.underflow_eq]

theorem sound_enter {r : Recording α} (h : Sound r) : Sound (enter r) := by
  rcases h with h | h
  · left
    show 0 ≤ r.depth + 1
    omega
  · exact .inr h

theorem sound_leave {r : Recording α} (h : Sound r) : Sound (leave r) := by
  by_cases hzero : r.depth = 0
  · right
    simp [leave, hzero]
  · rcases h with h | h
    · left
      show 0 ≤ r.depth - 1
      omega
    · right
      simp [leave, h]

theorem keeps_sound (event : Event (Node α)) :
    Keeps Sound ((visitor : Visitor α ε (Recording α)).handle event) := by
  cases event with
  | visit n => exact keeps_modify fun r hr => hr
  | enter => exact keeps_modify fun r hr => sound_enter hr
  | leave => exact keeps_modify fun r hr => sound_leave hr

theorem keeps_underflow (event : Event (Node α)) :
    Keeps (fun r => r.underflow = true) ((visitor : Visitor α ε (Recording α)).handle event) := by
  cases event with
  | visit n => exact keeps_modify fun r hr => hr
  | enter => exact keeps_modify fun r hr => hr
  | leave => exact keeps_modify fun r hr => by simp [leave, hr]

-- A recording visitor is told of anything without an error.
theorem replay_eq_ok (calls : List (Event (Node α))) (r : Recording α) :
    (visitor : Visitor α ε (Recording α)).replay calls r
      = .ok () ((visitor : Visitor α ε (Recording α)).afterAll r calls) := by
  induction calls generalizing r with
  | nil => rfl
  | cons event rest ih =>
    have hevent : (visitor : Visitor α ε (Recording α)).handle event r
        = .ok () ((visitor : Visitor α ε (Recording α)).after r event) := by
      cases event <;> rfl
    rw [Visitor.replay, bind_of_ok hevent, ih]
    rfl

theorem sameLevels_leave {r r' : Recording α} (hr : Sound r) (h : SameLevels (enter r) r') :
    SameLevels r (leave r') := by
  have hdepth : r'.depth = r.depth + 1 := h.depth_eq
  have hunderflow : r'.underflow = r.underflow := h.underflow_eq
  constructor
  · show r'.depth - 1 = r.depth
    omega
  · show (r'.underflow || r'.depth == 0) = r.underflow
    rw [hunderflow, hdepth]
    -- to come back to a depth below zero is an underflow only where there was one before
    rcases hr with hr | hr
    · have hne : r.depth + 1 ≠ 0 := by omega
      simp [hne]
    · simp [hr]

theorem sameLevels_afterAll {calls : List (Event (Node α))} (h : Nested calls) {r : Recording α}
    (hr : Sound r) :
    SameLevels r ((visitor : Visitor α ε (Recording α)).afterAll r calls) := by
  induction h generalizing r with
  | nil => exact ⟨rfl, rfl⟩
  | visit n _ ih =>
    have hrest := @ih (visit n.data r) hr
    exact ⟨hrest.depth_eq, hrest.underflow_eq⟩
  | @level inner rest _ _ ihinner ihrest =>
    have hlevel := sameLevels_leave hr (ihinner (sound_enter hr))
    have hrest := hlevel.trans (ihrest (hlevel.sound hr))
    unfold Visitor.afterAll at hrest ⊢
    rw [List.foldl_cons, List.foldl_append, List.foldl_cons]
    exact hrest

variable [IncludesErrors ε]

theorem stateLeft_follow (script : Script α) (r : Recording α) :
    stateLeft ((visitor : Visitor α ε (Recording α)).follow script) r
      = (visitor : Visitor α ε (Recording α)).afterAll r script.calls :=
  Visitor.stateLeft_follow_of_ok (replay_eq_ok script.calls r)

-- An underflow is never forgotten, so there is none on the way to a state that has none.
theorem underflow_follow {script : Script α} (h : script.Bracketed) {r : Recording α}
    (hr : Sound r) :
    (stateLeft ((visitor : Visitor α ε (Recording α)).follow script) r).underflow = r.underflow := by
  let v : Visitor α ε (Recording α) := visitor
  have hlatched : ∀ calls (r : Recording α), r.underflow = true →
      (v.afterAll r calls).underflow = true :=
    fun calls r => Visitor.afterAll_keeps keeps_underflow calls
  obtain ⟨rest, hrest⟩ := h.completed
  have hsame : (v.afterAll r (script.calls ++ rest)).underflow = r.underflow :=
    (sameLevels_afterAll hrest hr).underflow_eq
  have hsplit : v.afterAll r (script.calls ++ rest) = v.afterAll (v.afterAll r script.calls) rest :=
    List.foldl_append
  rw [hsplit] at hsame
  rw [stateLeft_follow]
  show (v.afterAll r script.calls).underflow = r.underflow
  cases hbefore : r.underflow with
  | true => exact hlatched _ r hbefore
  | false =>
    rw [Bool.eq_false_iff]
    intro hafter
    rw [hlatched rest _ hafter, hbefore] at hsame
    cases hsame

end Recording

end TreeTraversal
