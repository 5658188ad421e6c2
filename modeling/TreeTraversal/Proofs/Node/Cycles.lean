import Mathlib.Data.List.Count
import Mathlib.Logic.Relation
import TreeTraversal.Proofs.Node.Making
import TreeTraversal.Proofs.Node.Unfolding

/-!
# Circles among nodes

A node can only be given nodes that were made before it, but a link to a sibling may lead to a node
that was made later, and it is set anew with every parent. So links can lead round in a circle. This
module shows what that takes: on every circle there is a node that was given away more than once. Where
nothing behind a node was given away twice, all links come to an end.
-/

namespace TreeTraversal

variable {α : Type}

/-! ## 1. Links -/

/-- The nodes that a node is made of. -/
def Cell.links : Cell α → List NodeId
  | .binary _ l r => l.toList ++ r.toList
  | .linked _ first => first.toList
  | .wide _ _ slots => slots.filterMap id

/-- The nodes that a node leads to, the sibling after it among them. -/
def Entry.links (entry : Entry α) : List NodeId :=
  entry.cell.links ++ entry.sibling.next.toList

/-- A link from one stored node to another. -/
def Store.Leads (s : Store α) (a b : NodeId) : Prop :=
  ∃ entry, s.get? a = some entry ∧ b ∈ entry.links

theorem Making.mem_children_of_mem_links {m : Making α} {b : NodeId} (h : b ∈ m.entry.cell.links) :
    b ∈ m.children := by
  cases m with
  | binary d l r => exact h
  | linked d cs => exact List.mem_of_mem_head? (Option.mem_toList.mp h)

namespace Store

open Relation

variable {run : List (Making α)} {a b : NodeId}

theorem leads_of_mem_first {s : Store α} {data : α} {first : Option NodeId} {sibling : SiblingLink}
    (hget : s.get? a = some ⟨.linked data first, sibling⟩) (hb : b ∈ first) : s.Leads a b :=
  ⟨_, hget, List.mem_append_left _ (Option.mem_toList.mpr hb)⟩

theorem leads_of_mem_next {s : Store α} {entry : Entry α} (hget : s.get? a = some entry)
    (hb : b ∈ entry.sibling.next) : s.Leads a b :=
  ⟨entry, hget, List.mem_append_right _ (Option.mem_toList.mpr hb)⟩

-- A link leads to a child that the node was given, or to the sibling that a call put after it.
theorem Leads.origin (h : (ofRun run).Leads a b) :
    (∃ m, run[a.index]? = some m ∧ b ∈ m.children) ∨ ∃ m ∈ run, Follows m.chained a b := by
  obtain ⟨entry, hget, hb⟩ := h
  rcases List.mem_append.mp hb with hcell | hnext
  · obtain ⟨m, hm, hmade, -⟩ := exists_call_of_get? hget
    rw [hmade] at hcell
    exact .inl ⟨m, hm, Making.mem_children_of_mem_links hcell⟩
  · right
    apply exists_call_of_next?
    rw [next?, hget]
    exact Option.mem_toList.mp hnext

theorem Leads.mem_given (h : (ofRun run).Leads a b) : b ∈ given run := by
  rcases h.origin with ⟨m, hm, hb⟩ | ⟨m, hm, hfollows⟩
  · exact mem_given_iff.mpr ⟨m, List.mem_of_getElem? hm, hb⟩
  · exact (hfollows.sublist_given hm).subset (List.mem_cons_of_mem a List.mem_cons_self)

theorem mem_given_of_path (h : TransGen (ofRun run).Leads a b) : b ∈ given run := by
  cases h with
  | single h => exact h.mem_given
  | tail _ h => exact h.mem_given

/-! ## 2. The order in which nodes are given away -/

-- A link leads to an earlier call, or further on in the same call.
theorem Leads.sublist_given (hbuilt : BuiltBefore run) (h : (ofRun run).Leads a b)
    (ha : a ∈ given run) : List.Sublist [a, b] (given run) := by
  rcases h.origin with ⟨m, hm, hb⟩ | ⟨m, hm, hfollows⟩
  · obtain ⟨m', hm', ha'⟩ := mem_given_iff.mp ha
    obtain ⟨k, hk⟩ := List.getElem?_of_mem hm'
    exact sublist_given_of_lt (hbuilt k m' hk a ha') hm hk hb ha'
  · exact hfollows.sublist_given hm

theorem idxOf_lt_of_sublist {list : List NodeId} (h : List.Sublist [a, b] list)
    (honce : list.count b ≤ 1) : list.idxOf a < list.idxOf b := by
  induction list with
  | nil => cases h
  | cons c rest ih =>
    have hb : b ∈ rest := by
      cases h with
      | cons _ h => exact h.subset (List.mem_cons_of_mem a List.mem_cons_self)
      | cons_cons _ h => exact h.subset List.mem_cons_self
    have hcount : 0 < rest.count b := List.count_pos_iff.mpr hb
    have hne : c ≠ b := by
      rintro rfl
      rw [List.count_cons_self] at honce
      omega
    rw [List.idxOf_cons_ne rest hne]
    by_cases hca : c = a
    · rw [List.idxOf_cons_eq rest hca]
      omega
    · rw [List.idxOf_cons_ne rest hca]
      rw [List.count_cons_of_ne hne] at honce
      cases h with
      | cons _ h => exact Nat.succ_lt_succ (ih h honce)
      | cons_cons _ _ => exact absurd rfl hca

/-- The place where a node is first seen among all that are given away. -/
def rank (run : List (Making α)) (a : NodeId) : Nat :=
  (given run).idxOf a

theorem Leads.rank_lt (hbuilt : BuiltBefore run) (h : (ofRun run).Leads a b) (ha : a ∈ given run)
    (honce : (given run).count b ≤ 1) : rank run a < rank run b :=
  idxOf_lt_of_sublist (h.sublist_given hbuilt ha) honce

theorem rank_lt_of_path (hbuilt : BuiltBefore run) (ha : a ∈ given run)
    (h : TransGen (ofRun run).Leads a b)
    (honce : ∀ c, TransGen (ofRun run).Leads a c → ReflTransGen (ofRun run).Leads c b →
      (given run).count c ≤ 1) : rank run a < rank run b := by
  induction h with
  | single hab => exact hab.rank_lt hbuilt ha (honce _ (.single hab) .refl)
  | @tail c b hac hcb ih =>
    have hfirst := ih fun d had hdc => honce d had (hdc.tail hcb)
    have hlast := hcb.rank_lt hbuilt (mem_given_of_path hac) (honce b (hac.tail hcb) .refl)
    exact Nat.lt_trans hfirst hlast

/-- On every circle there is a node that was given away more than once. -/
theorem exists_repeated_of_circle (hbuilt : BuiltBefore run) (h : TransGen (ofRun run).Leads a a) :
    ∃ b, TransGen (ofRun run).Leads a b ∧ ReflTransGen (ofRun run).Leads b a ∧
      2 ≤ (given run).count b := by
  by_contra hnone
  have hlt : rank run a < rank run a := by
    apply rank_lt_of_path hbuilt (mem_given_of_path h) h
    intro c hac hca
    by_contra hcount
    exact hnone ⟨c, hac, hca, by omega⟩
  omega

/-! ## 3. Where all links come to an end -/

/-- Whether nothing behind a node was given away more than once. -/
def OnceBehind (run : List (Making α)) (a : NodeId) : Prop :=
  ∀ b, TransGen (ofRun run).Leads a b → (given run).count b ≤ 1

theorem OnceBehind.of_leads (h : OnceBehind run a) (hab : (ofRun run).Leads a b) :
    OnceBehind run b :=
  fun c hbc => h c (.head hab hbc)

theorem onceBehind_of_nodup (h : (given run).Nodup) (a : NodeId) : OnceBehind run a :=
  fun b _ => List.nodup_iff_count.mp h b

/-- What holds of a node as soon as it holds of all nodes it leads to holds of every node behind which
nothing was given away more than once: each link leads on in the order in which nodes are given away. -/
theorem OnceBehind.induction (hbuilt : BuiltBefore run) {P : NodeId → Prop}
    (step : ∀ a, (∀ b, (ofRun run).Leads a b → P b) → P a) (h : OnceBehind run a) : P a := by
  have hgiven : ∀ left a, (given run).length - rank run a ≤ left → a ∈ given run →
      OnceBehind run a → P a := by
    intro left
    induction left with
    | zero =>
      intro a hleft ha
      have hlt : rank run a < (given run).length := List.idxOf_lt_length_iff.mpr ha
      omega
    | succ left ih =>
      intro a hleft ha h
      apply step a
      intro b hab
      have hlt : rank run a < rank run b := hab.rank_lt hbuilt ha (h b (.single hab))
      exact ih b (by omega) hab.mem_given (h.of_leads hab)
  exact step a fun b hab => hgiven _ b (Nat.le_refl _) hab.mem_given (h.of_leads hab)

theorem index_lt_of_mem_given (hbuilt : BuiltBefore run) (ha : a ∈ given run) :
    a.index < run.length := by
  obtain ⟨m, hm, ha⟩ := mem_given_iff.mp ha
  obtain ⟨k, hk⟩ := List.getElem?_of_mem hm
  have hlt := hbuilt k m hk a ha
  have hlength := (List.getElem?_eq_some_iff.mp hk).1
  omega

theorem exists_unfolds (hbuilt : BuiltBefore run) (h : OnceBehind run a)
    (ha : a.index < run.length) : ∃ t, (ofRun run).Unfolds (some a) t := by
  refine OnceBehind.induction hbuilt
    (P := fun a => a.index < run.length → ∃ t, (ofRun run).Unfolds (some a) t) ?_ h ha
  intro a ih ha
  obtain ⟨sibling, hget, -⟩ := get?_ofRun (List.getElem?_eq_getElem ha)
  have hlink : ∀ link : Option NodeId, (∀ b ∈ link, (ofRun run).Leads a b) →
      ∃ t, (ofRun run).Unfolds link t := by
    intro link hlink
    cases link with
    | none => exact ⟨none, .none⟩
    | some b =>
      have hab := hlink b rfl
      exact ih b hab (index_lt_of_mem_given hbuilt hab.mem_given)
  cases hm : run[a.index] with
  | binary d l r =>
    rw [hm] at hget
    exact ⟨_, .other hget nofun⟩
  | linked d cs =>
    rw [hm] at hget
    obtain ⟨below, hbelow⟩ := hlink cs.head? fun b hb => leads_of_mem_first hget hb
    obtain ⟨after, hafter⟩ := hlink sibling.next fun b hb => leads_of_mem_next hget hb
    exact ⟨_, .linked hget hbelow hafter⟩

/-- Where a cursor stands after it has been moved some times. -/
def cursorAfter (s : Store α) (times : Nat) (c : ChildCursor) : ChildCursor :=
  (fun c => (s.advance c).2)^[times] c

/-- Whether a cursor comes to its end. -/
def Ends (s : Store α) (c : ChildCursor) : Prop :=
  ∃ times, s.cursorAfter times c = .ended

theorem Ends.of_advance {s : Store α} {c : ChildCursor} (h : s.Ends (s.advance c).2) : s.Ends c := by
  obtain ⟨times, htimes⟩ := h
  exact ⟨times + 1, htimes⟩

-- A cursor comes to its end if it does from each node that it may go to.
theorem ends_of_behind {s : Store α} {c : ChildCursor}
    (h : ∀ b, s.behind c = .ok (some b) → s.Ends (.after b)) : s.Ends c := by
  apply Ends.of_advance
  unfold advance
  split
  · exact h _ ‹_›
  · exact ⟨0, rfl⟩
  · exact ⟨0, rfl⟩

theorem leads_of_firstChild {s : Store α} (h : s.firstChild a = .ok (some b)) : s.Leads a b := by
  unfold firstChild at h
  rcases hget : s.get? a with _ | ⟨cell, sibling⟩
  · rw [hget] at h
    cases h
  · rw [hget] at h
    cases cell with
    | binary data l r => cases h
    | wide data isLast slots => cases h
    | linked data first =>
      cases h
      exact leads_of_mem_first hget rfl

theorem leads_of_nextSibling {s : Store α} (h : s.nextSibling a = .ok (some b)) : s.Leads a b := by
  unfold nextSibling at h
  rcases hget : s.get? a with _ | ⟨cell, sibling⟩
  · rw [hget] at h
    cases h
  · rw [hget] at h
    cases sibling with
    | unset => cases h
    | set next =>
      cases h
      exact leads_of_mem_next hget rfl

theorem ends_after (hbuilt : BuiltBefore run) (h : OnceBehind run a) :
    (ofRun run).Ends (.after a) := by
  apply OnceBehind.induction hbuilt (P := fun a => (ofRun run).Ends (.after a)) _ h
  intro a ih
  apply ends_of_behind
  exact fun b hb => ih b (leads_of_nextSibling hb)

theorem ends_before (hbuilt : BuiltBefore run) (h : OnceBehind run a) :
    (ofRun run).Ends (.before a) := by
  apply ends_of_behind
  intro b hb
  exact ends_after hbuilt (h.of_leads (leads_of_firstChild hb))

-- Nothing has to be cut when such a node is read.
theorem exists_below (hbuilt : BuiltBefore run) (h : OnceBehind run a) {data : α}
    {first : Option NodeId} {sibling : SiblingLink}
    (hget : (ofRun run).get? a = some ⟨.linked data first, sibling⟩) :
    ∃ below, (ofRun run).Unfolds first below ∧
      (ofRun run).node? a = some (.linked data below ((ofRun run).stubAt sibling.next)) := by
  have hbelow : ∃ below, (ofRun run).Unfolds first below := by
    cases first with
    | none => exact ⟨none, .none⟩
    | some b =>
      have hab : (ofRun run).Leads a b := leads_of_mem_first hget rfl
      exact exists_unfolds hbuilt (h.of_leads hab) (index_lt_of_mem_given hbuilt hab.mem_given)
  obtain ⟨below, hbelow⟩ := hbelow
  exact ⟨below, hbelow, node?_of_unfolds hget hbelow⟩

/-! ## 4. Circles -/

theorem index_lt_of_mem_links (hbuilt : BuiltBefore run) {entry : Entry α}
    (hget : (ofRun run).get? a = some entry) (hb : b ∈ entry.cell.links) : b.index < a.index := by
  obtain ⟨m, hm, hmade, -⟩ := exists_call_of_get? hget
  rw [hmade] at hb
  exact hbuilt a.index m hm b (Making.mem_children_of_mem_links hb)

/-- What nodes are made of was made before them, so that only links to siblings can close a circle. On
every circle there is a node that was given away more than once. Behind a node where that has not
happened there is no circle: its cursor comes to its end, and a walk along chains finds the finite tree
that the links unfold to. -/
theorem circle_needs_repeated_giving {run : List (Making α)} (hbuilt : BuiltBefore run) :
    (∀ a b entry, (ofRun run).get? a = some entry → b ∈ entry.cell.links → b.index < a.index) ∧
      (∀ a, TransGen (ofRun run).Leads a a →
        ∃ b, TransGen (ofRun run).Leads a b ∧ ReflTransGen (ofRun run).Leads b a ∧
          2 ≤ (given run).count b) ∧
      ∀ p, OnceBehind run p →
        (∀ a, ReflTransGen (ofRun run).Leads p a → ¬ TransGen (ofRun run).Leads a a) ∧
          (ofRun run).Ends (.before p) ∧
          ∀ data first sibling, (ofRun run).get? p = some ⟨.linked data first, sibling⟩ →
            ∃ below, (ofRun run).Unfolds first below ∧
              (ofRun run).node? p
                = some (.linked data below ((ofRun run).stubAt sibling.next)) := by
  refine ⟨fun a b entry hget hb => index_lt_of_mem_links hbuilt hget hb,
    fun a ha => exists_repeated_of_circle hbuilt ha, ?_⟩
  intro p hp
  refine ⟨?_, ends_before hbuilt hp, fun data first sibling hget => exists_below hbuilt hp hget⟩
  intro a hpa ha
  obtain ⟨b, hab, -, hcount⟩ := exists_repeated_of_circle hbuilt ha
  have honce := hp b (.trans_right hpa hab)
  omega

/-- A parent of two children, and a node with slots that holds the parent. -/
def heldFamily : List (Making Nat) :=
  [.linked 10 [], .linked 11 [], .linked 12 [⟨0⟩, ⟨1⟩], .binary 13 (some ⟨2⟩) none]

/-- A parent that was given the same child twice, so that the child is its own sibling. -/
def doubledChild : List (Making Nat) :=
  [.linked 10 [], .linked 11 [⟨0⟩, ⟨0⟩]]

theorem doubledChild_leads : (ofRun doubledChild).Leads ⟨0⟩ ⟨0⟩ :=
  @leads_of_mem_next _ _ _ _ ⟨.linked 10 none, .set (some ⟨0⟩)⟩ rfl rfl

theorem heldFamily_ends_and_doubledChild_repeats :
    BuiltBefore heldFamily ∧ OnceBehind heldFamily ⟨2⟩ ∧ (ofRun heldFamily).Ends (.before ⟨2⟩) ∧
      BuiltBefore doubledChild ∧ ∃ b, 2 ≤ (given doubledChild).count b := by
  have hbuilt : BuiltBefore heldFamily := by decide
  have honce : OnceBehind heldFamily ⟨2⟩ := onceBehind_of_nodup (by decide) ⟨2⟩
  obtain ⟨-, -, hends⟩ := circle_needs_repeated_giving hbuilt
  have hdoubled : BuiltBefore doubledChild := by decide
  obtain ⟨-, hcircle, -⟩ := circle_needs_repeated_giving hdoubled
  obtain ⟨b, -, -, hcount⟩ := hcircle ⟨0⟩ (.single doubledChild_leads)
  exact ⟨hbuilt, honce, (hends ⟨2⟩ honce).2.1, hdoubled, b, hcount⟩

theorem cursorAfter_succ (s : Store α) (times : Nat) (c : ChildCursor) :
    s.cursorAfter (times + 1) c = (s.advance (s.cursorAfter times c)).2 :=
  Function.iterate_succ_apply' _ times c

/-- All that a parent is given was made before, and yet a child leads back to itself, and the parent's
children have no end. -/
theorem doubled_child_closes_circle :
    BuiltBefore doubledChild ∧ TransGen (ofRun doubledChild).Leads ⟨0⟩ ⟨0⟩ ∧
      ¬ (ofRun doubledChild).Ends (.before ⟨1⟩) := by
  refine ⟨by decide, .single doubledChild_leads, ?_⟩
  have hafter : ∀ times, (ofRun doubledChild).cursorAfter (times + 1) (.before ⟨1⟩) = .after ⟨0⟩ := by
    intro times
    induction times with
    | zero => rfl
    | succ times ih =>
      rw [cursorAfter_succ, ih]
      rfl
  rintro ⟨times, hended⟩
  cases times with
  | zero => cases hended
  | succ times =>
    rw [hafter times] at hended
    cases hended

end Store

end TreeTraversal
