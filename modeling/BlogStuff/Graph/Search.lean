import Mathlib.Data.Finset.Card
import Mathlib.Data.List.Basic
import Mathlib.Logic.Relation
import Mathlib.Tactic

/-!
# BlogStuff.Graph.Search

Depth-first search that records what it visits in a table.

The nodes are given by a partial function: `node a` is the value of a node, if there is one, and
`next` lists the names a value refers to. A search from a name does nothing if the name is in the
table or has no value; otherwise it records the name and goes on with everything the value refers
to. The graph may have cycles and names without a value.

The table is shared by all calls, so what one call has recorded stops the later ones. `Extends`
is what survives this: of the names a call adds, every one is reached from where the call began,
and everything it refers to is in the table when the call returns. The names on the way to the
current call are in the table before it and need not have this property yet.

A call of depth `d` returns if fewer than `d` names with a value are missing in its table
(`visit_extends`).
-/

namespace BlogStuff.Graph

variable {α β : Type}

/-- A search from `a`; the depth of the recursion is bounded. A name is recorded before those it
refers to are searched, so that a cycle comes back to a name that is there. -/
def visit [DecidableEq α] (node : α → Option β) (next : β → List α) :
    Nat → List (α × β) → α → Option (List (α × β))
  | 0, _, _ => none
  | depth + 1, table, a =>
      if a ∈ table.map Prod.fst then some table
      else
        match node a with
        | none => some table
        | some b => (next b).foldlM (visit node next depth) (table ++ [(a, b)])

/-- `a` has a value, which refers to `c`. -/
def Edge (node : α → Option β) (next : β → List α) (a c : α) : Prop :=
  ∃ b, node a = some b ∧ c ∈ next b

/-- What searches from the names `starts` do to a table: nothing is lost, what is new was reached
and has its value, and all that it refers to is there too. -/
structure Extends (node : α → Option β) (next : β → List α) (starts : List α)
    (table table' : List (α × β)) : Prop where
  mono : ∀ p ∈ table, p ∈ table'
  nodup : (table.map Prod.fst).Nodup → (table'.map Prod.fst).Nodup
  value : ∀ p ∈ table', p ∈ table ∨ node p.1 = some p.2
  reached : ∀ p ∈ table', p ∈ table ∨ ∃ a ∈ starts, Relation.ReflTransGen (Edge node next) a p.1
  visited : ∀ a ∈ starts, (node a).isSome → a ∈ table'.map Prod.fst
  closed : ∀ p ∈ table', p ∈ table ∨ ∀ c ∈ next p.2, (node c).isSome → c ∈ table'.map Prod.fst

section

variable {node : α → Option β} {next : β → List α} {table table' table'' : List (α × β)}
  {a : α} {starts : List α}

theorem Extends.mono_keys (h : Extends node next starts table table') {c : α}
    (hc : c ∈ table.map Prod.fst) : c ∈ table'.map Prod.fst := by
  obtain ⟨p, hp, rfl⟩ := List.mem_map.mp hc
  exact List.mem_map_of_mem (h.mono p hp)

theorem Extends.refl (h : ∀ a ∈ starts, (node a).isSome → a ∈ table.map Prod.fst) :
    Extends node next starts table table where
  mono _ hp := hp
  nodup h := h
  value _ hp := .inl hp
  reached _ hp := .inl hp
  visited := h
  closed _ hp := .inl hp

/-- One search after the other. What the first one visited stays visited, so the second one has to
answer only for its own starts. -/
theorem Extends.trans (h : Extends node next [a] table table')
    (h' : Extends node next starts table' table'') :
    Extends node next (a :: starts) table table'' where
  mono p hp := h'.mono p (h.mono p hp)
  nodup hnodup := h'.nodup (h.nodup hnodup)
  value p hp := (h'.value p hp).elim (h.value p) .inr
  reached p hp := by
    rcases h'.reached p hp with hp | ⟨c, hc, hreach⟩
    · refine (h.reached p hp).imp_right fun hreach => ?_
      obtain ⟨c, hc, hreach⟩ := hreach
      exact ⟨c, List.mem_cons.mpr (.inl (List.mem_singleton.mp hc)), hreach⟩
    · exact .inr ⟨c, List.mem_cons_of_mem a hc, hreach⟩
  visited c hc hsome := by
    rcases List.mem_cons.mp hc with rfl | hc
    · exact h'.mono_keys (h.visited c List.mem_cons_self hsome)
    · exact h'.visited c hc hsome
  closed p hp := by
    rcases h'.closed p hp with hp | hclosed
    · exact (h.closed p hp).imp_right fun hclosed c hc hsome => h'.mono_keys (hclosed c hc hsome)
    · exact .inr hclosed

/-- Recording a name and searching from everything it refers to. The search below it starts with the
name in the table, which is why a cycle ends. -/
theorem Extends.record {b : β} (hnode : node a = some b) (hnew : a ∉ table.map Prod.fst)
    (h : Extends node next (next b) (table ++ [(a, b)]) table') :
    Extends node next [a] table table' where
  mono p hp := h.mono p (List.mem_append_left _ hp)
  nodup hnodup := by
    refine h.nodup ?_
    rw [List.map_append]
    exact List.nodup_append_comm.mp (List.nodup_cons.mpr ⟨hnew, hnodup⟩)
  value p hp := by
    rcases h.value p hp with hp | hvalue
    · rcases List.mem_append.mp hp with hp | hp
      · exact .inl hp
      · rw [List.mem_singleton.mp hp]
        exact .inr hnode
    · exact .inr hvalue
  reached p hp := by
    rcases h.reached p hp with hp | ⟨c, hc, hreach⟩
    · rcases List.mem_append.mp hp with hp | hp
      · exact .inl hp
      · rw [List.mem_singleton.mp hp]
        exact .inr ⟨a, List.mem_cons_self, .refl⟩
    · exact .inr ⟨a, List.mem_cons_self, .head ⟨b, hnode, hc⟩ hreach⟩
  visited c hc _ := by
    rw [List.mem_singleton.mp hc]
    exact h.mono_keys (List.mem_map_of_mem (List.mem_append_right _ List.mem_cons_self))
  closed p hp := by
    rcases h.closed p hp with hp | hclosed
    · rcases List.mem_append.mp hp with hp | hp
      · exact .inl hp
      · rw [List.mem_singleton.mp hp]
        exact .inr h.visited
    · exact .inr hclosed

/-- **A search from the empty table finds what is reached.** Everything in the table was reached;
conversely the table is closed under the references of its entries, and a path is followed edge by
edge. -/
theorem Extends.mem_iff (h : Extends node next [a] [] table) {c : α} {b : β} :
    (c, b) ∈ table ↔ node c = some b ∧ Relation.ReflTransGen (Edge node next) a c := by
  have hvalue : ∀ p ∈ table, node p.1 = some p.2 := fun p hp =>
    (h.value p hp).resolve_left List.not_mem_nil
  constructor
  · intro hmem
    obtain ⟨s, hs, hreach⟩ := (h.reached _ hmem).resolve_left List.not_mem_nil
    rw [List.mem_singleton.mp hs] at hreach
    exact ⟨hvalue _ hmem, hreach⟩
  · intro hc
    obtain ⟨hnode, hreach⟩ := hc
    -- along the path, every name with a value is in the table
    have hkeys : ∀ d, Relation.ReflTransGen (Edge node next) a d → (node d).isSome →
        d ∈ table.map Prod.fst := by
      intro d hd
      induction hd with
      | refl => exact fun hsome => h.visited a List.mem_cons_self hsome
      | tail _ hedge ih =>
          intro hsome
          obtain ⟨b', hb', hnext⟩ := hedge
          obtain ⟨p, hp, hpfst⟩ := List.mem_map.mp (ih (by rw [hb']; rfl))
          have hp' := hvalue p hp
          rw [hpfst, hb'] at hp'
          have hclosed := (h.closed p hp).resolve_left List.not_mem_nil
          rw [← Option.some.inj hp'] at hclosed
          exact hclosed _ hnext hsome
    obtain ⟨p, hp, hpfst⟩ := List.mem_map.mp (hkeys c hreach (by rw [hnode]; rfl))
    have hp' := hvalue p hp
    rw [hpfst, hnode] at hp'
    have hpair : p = (c, b) := Prod.ext hpfst (Option.some.inj hp').symm
    rwa [hpair] at hp

variable [DecidableEq α]

/-- The names of `nodes` that are missing in a table. -/
def missing (nodes : Finset α) (table : List (α × β)) : Nat :=
  (nodes \ (table.map Prod.fst).toFinset).card

theorem Extends.missing_le (h : Extends node next starts table table') (nodes : Finset α) :
    missing nodes table' ≤ missing nodes table := by
  refine Finset.card_le_card (Finset.sdiff_subset_sdiff le_rfl fun c hc => ?_)
  rw [List.mem_toFinset] at hc ⊢
  exact h.mono_keys hc

theorem missing_concat_lt {nodes : Finset α} (b : β) (ha : a ∈ nodes)
    (hnew : a ∉ table.map Prod.fst) : missing nodes (table ++ [(a, b)]) < missing nodes table := by
  refine Finset.card_lt_card (Finset.ssubset_iff_subset_ne.mpr ⟨?_, fun heq => ?_⟩)
  · refine Finset.sdiff_subset_sdiff le_rfl fun c hc => ?_
    rw [List.mem_toFinset] at hc ⊢
    rw [List.map_append]
    exact List.mem_append_left _ hc
  · -- the recorded name is missing before, and not behind
    have hmem : a ∈ nodes \ (table.map Prod.fst).toFinset :=
      Finset.mem_sdiff.mpr ⟨ha, fun h => hnew (List.mem_toFinset.mp h)⟩
    rw [← heq, Finset.mem_sdiff, List.mem_toFinset, List.map_append] at hmem
    exact hmem.2 (List.mem_append_right _ List.mem_cons_self)

/-- Searches from several names, where each of them returns. -/
theorem foldlM_extends {nodes : Finset α} {depth : Nat}
    (hvisit : ∀ table a, missing nodes table < depth →
      ∃ table', visit node next depth table a = some table' ∧
        Extends node next [a] table table')
    (starts : List α) (table : List (α × β)) (hdepth : missing nodes table < depth) :
    ∃ table', starts.foldlM (visit node next depth) table = some table' ∧
      Extends node next starts table table' := by
  induction starts generalizing table with
  | nil => exact ⟨table, rfl, .refl fun a ha => absurd ha List.not_mem_nil⟩
  | cons a starts ih =>
      obtain ⟨table', hrun, hfirst⟩ := hvisit table a hdepth
      obtain ⟨table'', hrun', hrest⟩ := ih table' ((hfirst.missing_le nodes).trans_lt hdepth)
      exact ⟨table'', by rw [List.foldlM_cons, hrun]; exact hrun', hfirst.trans hrest⟩

/-- **A search returns, and extends the table.** Every nested call has one node fewer to add,
so a depth above their number suffices. -/
theorem visit_extends {nodes : Finset α} (hnodes : ∀ a, (node a).isSome → a ∈ nodes)
    (depth : Nat) (table : List (α × β)) (a : α) (hdepth : missing nodes table < depth) :
    ∃ table', visit node next depth table a = some table' ∧
      Extends node next [a] table table' := by
  induction depth generalizing table a with
  | zero => exact absurd hdepth (Nat.not_lt_zero _)
  | succ depth ih =>
      rw [visit]
      split_ifs with hseen
      · refine ⟨table, rfl, .refl fun c hc _ => ?_⟩
        rwa [List.mem_singleton.mp hc]
      · cases hnode : node a with
        | none =>
            refine ⟨table, rfl, .refl fun c hc hsome => ?_⟩
            rw [List.mem_singleton.mp hc, hnode] at hsome
            exact absurd hsome Bool.false_ne_true
        | some b =>
            have hless := missing_concat_lt b
              (hnodes a (by rw [hnode]; rfl)) hseen
            obtain ⟨table', hrun, hrest⟩ :=
              foldlM_extends ih (next b) (table ++ [(a, b)]) (by omega)
            exact ⟨table', hrun, hrest.record hnode hseen⟩

end

end BlogStuff.Graph
