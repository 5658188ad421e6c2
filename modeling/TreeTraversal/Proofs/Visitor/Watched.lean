import TreeTraversal.Proofs.Visitor.History
import TreeTraversal.Proofs.Walk.Script
import TreeTraversal.Visitor.Collecting

/-!
# Watching a visitor that follows a script

Whoever watches a visitor notes every hook that did not fail. A script that is followed to its end is
noted as a whole, and watching changes neither the visitor's states nor its errors.
-/

namespace TreeTraversal.Visitor

variable {α ε σ τ : Type}

/-! ## 1. Replayed calls -/

section Replay

variable {note : Event (Node α) → σ → τ → τ} {next : Event (Node α) → τ → τ}

theorem handle_watched (v : Visitor α ε σ) (event : Event (Node α)) :
    (v.watched note).handle event = noting note event (v.handle event) := by
  cases event <;> rfl

-- Notes that do not depend on the visitor's state fold over the calls.
theorem replay_watched_of_ok (hnote : ∀ event s t, note event s t = next event t)
    (v : Visitor α ε σ) {calls : List (Event (Node α))} {s s' : σ} (t : τ)
    (h : v.replay calls s = .ok () s') :
    (v.watched note).replay calls ⟨s, t⟩
      = .ok () ⟨s', calls.foldl (fun t event => next event t) t⟩ := by
  induction calls generalizing s t with
  | nil =>
    cases h
    rfl
  | cons event rest ih =>
    rw [replay] at h ⊢
    cases hevent : v.handle event s with
    | error e s₁ =>
      -- a hook that fails would have ended the run
      rw [bind_of_error hevent] at h
      cases h
    | ok u s₁ =>
      rw [bind_of_ok hevent] at h
      have hhook : (v.watched note).handle event ⟨s, t⟩ = .ok () ⟨s₁, next event t⟩ := by
        simp only [handle_watched, noting, hevent, hnote]
      rw [bind_of_ok hhook, ih _ h, List.foldl_cons]

theorem replay_watched_of_error (v : Visitor α ε σ) {calls : List (Event (Node α))} {s s' : σ} {e : ε}
    (t : τ) (h : v.replay calls s = .error e s') :
    ∃ t', (v.watched note).replay calls ⟨s, t⟩ = .error e ⟨s', t'⟩ := by
  induction calls generalizing s t with
  | nil => cases h
  | cons event rest ih =>
    rw [replay] at h ⊢
    cases hevent : v.handle event s with
    | error e₁ s₁ =>
      rw [bind_of_error hevent] at h
      cases h
      -- the hook that fails is not noted
      have hhook : (v.watched note).handle event ⟨s, t⟩ = .error e ⟨s', t⟩ := by
        simp only [handle_watched, noting, hevent]
      exact ⟨t, bind_of_error hhook⟩
    | ok u s₁ =>
      rw [bind_of_ok hevent] at h
      have hhook : (v.watched note).handle event ⟨s, t⟩ = .ok () ⟨s₁, note event s₁ t⟩ := by
        simp only [handle_watched, noting, hevent]
      rw [bind_of_ok hhook]
      exact ih _ h

end Replay

/-! ## 2. Followed scripts -/

section Follow

variable [IncludesErrors ε]

theorem follow_eq_ok_iff (v : Visitor α ε σ) (script : Script α) (s s' : σ) :
    v.follow script s = .ok () s' ↔ script.fault = none ∧ v.replay script.calls s = .ok () s' := by
  rcases script with ⟨calls, fault⟩
  unfold follow
  cases hrun : v.replay calls s with
  | error e s₁ =>
    rw [bind_of_error hrun]
    simp
  | ok u s₁ =>
    rw [bind_of_ok hrun]
    cases fault with
    | none => simp [Script.finish_none]
    | some f => simp [Script.finish_some]

theorem follow_eq_error_iff (v : Visitor α ε σ) (script : Script α) (s s' : σ) (e : ε) :
    v.follow script s = .error e s' ↔
      v.replay script.calls s = .error e s' ∨
        v.replay script.calls s = .ok () s' ∧ script.fault.map IncludesErrors.ofError = some e := by
  rcases script with ⟨calls, fault⟩
  unfold follow
  cases hrun : v.replay calls s with
  | error e₁ s₁ =>
    rw [bind_of_error hrun]
    simp
  | ok u s₁ =>
    rw [bind_of_ok hrun]
    cases fault with
    | none => simp [Script.finish_none]
    | some f => simp [Script.finish_some, and_comm]

-- A fault of the walk's own does nothing to the visitor.
theorem stateLeft_follow_of_ok {v : Visitor α ε σ} {script : Script α} {s s' : σ}
    (h : v.replay script.calls s = .ok () s') : stateLeft (v.follow script) s = s' := by
  cases hfault : script.fault with
  | none => exact stateLeft_of_ok ((follow_eq_ok_iff v script s s').mpr ⟨hfault, h⟩)
  | some e =>
    have hfailed := (follow_eq_error_iff v script s s' (IncludesErrors.ofError e)).mpr
      (.inr ⟨h, by rw [hfault]; rfl⟩)
    exact stateLeft_of_error hfailed

variable {note : Event (Node α) → σ → τ → τ} {next : Event (Node α) → τ → τ}

theorem follow_watched_of_ok (hnote : ∀ event s t, note event s t = next event t)
    (v : Visitor α ε σ) {script : Script α} {s s' : σ} (t : τ) (h : v.follow script s = .ok () s') :
    (v.watched note).follow script ⟨s, t⟩
      = .ok () ⟨s', script.calls.foldl (fun t event => next event t) t⟩ := by
  rw [follow_eq_ok_iff] at h ⊢
  exact ⟨h.1, replay_watched_of_ok hnote v t h.2⟩

theorem follow_watched_of_error (hnote : ∀ event s t, note event s t = next event t)
    (v : Visitor α ε σ) {script : Script α} {s s' : σ} {e : ε} (t : τ)
    (h : v.follow script s = .error e s') :
    ∃ t', (v.watched note).follow script ⟨s, t⟩ = .error e ⟨s', t'⟩ := by
  rw [follow_eq_error_iff] at h
  rcases h with hfailed | ⟨hran, hfault⟩
  · obtain ⟨t', hwatched⟩ : ∃ t', (v.watched note).replay script.calls ⟨s, t⟩ = .error e ⟨s', t'⟩ :=
      replay_watched_of_error v t hfailed
    exact ⟨t', (follow_eq_error_iff _ _ _ _ _).mpr (.inl hwatched)⟩
  · have hwatched := replay_watched_of_ok hnote v t hran
    exact ⟨_, (follow_eq_error_iff _ _ _ _ _).mpr (.inr ⟨hwatched, hfault⟩)⟩

end Follow

end TreeTraversal.Visitor
