import TreeTraversal.Proofs.Walk.Script

/-!
# Levels of walks

Hooks nest when every level that is entered is left again and no other level is left. The hooks of a
walk without a fault nest. A walk with a fault stops where a node lacks a link, which may be inside of
some levels; what is missing then is nothing but the end of hooks that nest.
-/

namespace TreeTraversal

/-! ## 1. Hooks that nest -/

/-- Hooks of which each `enter` is followed by its own `leave`, with hooks that nest in between. -/
inductive Nested {β : Type} : List (Event β) → Prop
  | nil : Nested []
  | visit (b : β) {rest : List (Event β)} (hrest : Nested rest) : Nested (.visit b :: rest)
  | level {inner rest : List (Event β)} (hinner : Nested inner) (hrest : Nested rest) :
      Nested (.enter :: (inner ++ .leave :: rest))

namespace Nested

variable {β : Type} {xs ys : List (Event β)}

theorem append (hx : Nested xs) (hy : Nested ys) : Nested (xs ++ ys) := by
  induction hx with
  | nil => exact hy
  | visit b _ ih => exact .visit b ih
  | @level inner rest hinner _ _ ih =>
    show Nested (.enter :: ((inner ++ .leave :: rest) ++ ys))
    rw [List.append_assoc]
    exact .level hinner ih

theorem wrap (h : Nested xs) : Nested (.enter :: (xs ++ [.leave])) :=
  .level h .nil

theorem of_visits (nodes : List β) : Nested (nodes.map .visit) := by
  induction nodes with
  | nil => exact .nil
  | cons b rest ih => exact .visit b ih

theorem flatMap {γ : Type} {calls : γ → List (Event β)} {items : List γ}
    (h : ∀ c ∈ items, Nested (calls c)) : Nested (items.flatMap calls) := by
  induction items with
  | nil => exact .nil
  | cons c rest ih =>
    rw [List.flatMap_cons]
    exact (h c List.mem_cons_self).append (ih fun d hd => h d (List.mem_cons_of_mem c hd))

end Nested

namespace Node

variable {α : Type}

theorem nested_preOrderCalls (n : Node α) : Nested n.preOrderCalls := by
  induction n using induction_offspring with
  | step n ih =>
    have hbelow : Nested (n.children.flatMap preOrderCalls) :=
      .flatMap fun c hc => ih c (mem_offspring_of_mem_children hc)
    rw [preOrderCalls_eq]
    exact .visit n hbelow.wrap

theorem nested_postOrderCalls (n : Node α) : Nested n.postOrderCalls := by
  induction n using induction_offspring with
  | step n ih =>
    have hbelow : Nested (n.children.flatMap postOrderCalls) :=
      .flatMap fun c hc => ih c (mem_offspring_of_mem_children hc)
    rw [postOrderCalls_eq]
    exact .level hbelow (.visit n .nil)

end Node

/-! ## 2. Scripts whose hooks nest -/

namespace Script

variable {α : Type}

/-- The hooks of a script nest if it has no fault, and are the beginning of hooks that nest if it has
one. The only faults are links that a node does not have. -/
structure Bracketed (script : Script α) : Prop where
  nested : script.fault = none → Nested script.calls
  completed : ∃ rest, Nested (script.calls ++ rest)
  fault_eq : ∀ e, script.fault = some e → ∃ shape link, e = .missingLink shape link

theorem bracketed_of_nested {calls : List (Event (Node α))} (h : Nested calls) :
    Bracketed ⟨calls, none⟩ :=
  ⟨fun _ => h, ⟨[], by rwa [List.append_nil]⟩, nofun⟩

theorem bracketed_of_missingLink {calls : List (Event (Node α))} (shape : Shape) (link : Link)
    (rest : List (Event (Node α))) (h : Nested (calls ++ rest)) :
    Bracketed ⟨calls, some (.missingLink shape link)⟩ :=
  ⟨nofun, ⟨rest, h⟩, fun _ he => ⟨shape, link, (Option.some.inj he).symm⟩⟩

-- What comes after a fault is not reached, so that the hooks before it are all there are.
theorem Bracketed.andThen {a b : Script α} (ha : a.Bracketed) (hb : b.Bracketed) :
    (a.andThen b).Bracketed := by
  cases hfault : a.fault with
  | some e => rwa [andThen_of_fault hfault]
  | none =>
    rw [andThen_of_none hfault]
    obtain ⟨rest, hrest⟩ := hb.completed
    refine ⟨fun h => (ha.nested hfault).append (hb.nested h), ⟨rest, ?_⟩, hb.fault_eq⟩
    show Nested ((a.calls ++ b.calls) ++ rest)
    rw [List.append_assoc]
    exact (ha.nested hfault).append hrest

theorem bracketed_sequence {β : Type} {script : β → Script α} {items : List β}
    (h : ∀ b ∈ items, (script b).Bracketed) : (sequence (items.map script)).Bracketed := by
  induction items with
  | nil => exact bracketed_of_nested .nil
  | cons b rest ih =>
    rw [List.map_cons, sequence_cons]
    exact (h b List.mem_cons_self).andThen (ih fun c hc => h c (List.mem_cons_of_mem b hc))

/-- A script inside a level of its own. -/
def inLevel (script : Script α) : Script α :=
  .sequence [⟨[.enter], none⟩, script, ⟨[.leave], none⟩]

-- A fault inside of the level leaves it open, and to close it is what is missing.
theorem Bracketed.inLevel {script : Script α} (h : script.Bracketed) :
    script.inLevel.Bracketed := by
  cases hfault : script.fault with
  | some e =>
    have hrun : script.inLevel = ⟨.enter :: script.calls, some e⟩ := by
      simp [Script.inLevel, sequence, Script.andThen, hfault]
    obtain ⟨rest, hrest⟩ := h.completed
    obtain ⟨shape, link, rfl⟩ := h.fault_eq e hfault
    rw [hrun]
    apply bracketed_of_missingLink shape link (rest ++ [.leave])
    have hlevel := hrest.wrap
    rwa [List.append_assoc] at hlevel
  | none =>
    have hrun : script.inLevel = ⟨.enter :: (script.calls ++ [.leave]), none⟩ := by
      simp [Script.inLevel, sequence, Script.andThen, hfault]
    rw [hrun]
    exact bracketed_of_nested (h.nested hfault).wrap

end Script

namespace Node

variable {α : Type}

theorem siblingScript_eq_inLevel {n : Node α} (h : n.shape = .linked) :
    n.siblingScript = (⟨[.visit n], none⟩ : Script α).andThen
      (Script.sequence (n.offspring.map siblingScript)).inLevel := by
  rw [siblingScript_of_linked h, Script.inLevel, Script.sequence_cons, Script.sequence_cons]
  rfl

theorem inOrderScript_eq_inLevel (d : α) (l r : Option (Node α)) :
    (binary d l r).inOrderScript = (inOrderSlotScript l).inLevel.andThen
      ((⟨[.visit (binary d l r)], none⟩ : Script α).andThen (inOrderSlotScript r).inLevel) := by
  rw [inOrderScript]
  -- both sides are the same hooks, up to the fault of the left or of the right side
  rcases inOrderSlotScript l with ⟨left, _ | e⟩ <;> rcases inOrderSlotScript r with ⟨right, _ | e⟩ <;>
    simp [Script.inLevel, Script.sequence, Script.andThen]

theorem bracketed_visit (n : Node α) : (⟨[.visit n], none⟩ : Script α).Bracketed :=
  Script.bracketed_of_nested (.visit n .nil)

theorem bracketed_stackScript (n : Node α) : n.stackScript.Bracketed := by
  induction n using induction_offspring with
  | step n ih =>
    by_cases h : n.shape = .binary
    · have hbelow : (Script.sequence (n.children.map stackScript)).Bracketed :=
        Script.bracketed_sequence fun c hc => ih c (mem_offspring_of_mem_children hc)
      rw [stackScript_of_binary h]
      exact (bracketed_visit n).andThen hbelow
    · rw [stackScript_of_not_binary h]
      apply Script.bracketed_of_missingLink _ _ []
      exact .visit n .nil

theorem bracketed_siblingScript (n : Node α) : n.siblingScript.Bracketed := by
  induction n using induction_offspring with
  | step n ih =>
    by_cases h : n.shape = .linked
    · rw [siblingScript_eq_inLevel h]
      exact (bracketed_visit n).andThen (Script.bracketed_sequence ih).inLevel
    · -- the level of the children stays open
      rw [siblingScript_of_not_linked h]
      apply Script.bracketed_of_missingLink _ _ [.leave]
      exact .visit n (.level .nil .nil)

mutual

theorem bracketed_inOrderScript (n : Node α) : n.inOrderScript.Bracketed := by
  cases n with
  | binary d l r =>
    have hl := bracketed_inOrderSlotScript l
    have hr := bracketed_inOrderSlotScript r
    rw [inOrderScript_eq_inLevel]
    exact hl.inLevel.andThen ((bracketed_visit _).andThen hr.inLevel)
  | linked d f s =>
    rw [inOrderScript]
    apply Script.bracketed_of_missingLink _ _ [.leave]
    exact .level .nil .nil
  | wide d isLast slots =>
    rw [inOrderScript]
    apply Script.bracketed_of_missingLink _ _ [.leave]
    exact .level .nil .nil

theorem bracketed_inOrderSlotScript (slot : Option (Node α)) :
    (inOrderSlotScript slot).Bracketed := by
  cases slot with
  | none =>
    rw [inOrderSlotScript]
    exact Script.bracketed_of_nested .nil
  | some n =>
    rw [inOrderSlotScript]
    exact bracketed_inOrderScript n

end

end Node

/-- Whatever the strategy and the tree, the hooks of a walk are bracketed. -/
theorem Strategy.bracketed_scriptOf {α : Type} (s : Strategy) (root : Option (Node α)) :
    (s.scriptOf root).Bracketed := by
  cases root with
  | none => exact Script.bracketed_of_nested .nil
  | some n =>
    cases s with
    | breadthFirst => exact Script.bracketed_of_nested (.of_visits _)
    | preOrder => exact Script.bracketed_of_nested n.nested_preOrderCalls
    | iterativePreOrder => exact n.bracketed_stackScript
    | postOrder => exact Script.bracketed_of_nested n.nested_postOrderCalls
    | inOrder => exact n.bracketed_inOrderScript
    | siblingPreOrder => exact n.bracketed_siblingScript

end TreeTraversal
