import BlogStuff.Adepends.Modules

/-!
# BlogStuff.Adepends.Closing

The loop at the end of `parse_makefile`, which evaluates the words of every `depends`
list with the variables as they are then. The first word of a value takes the place of
the word, the others are appended and so evaluated once more: `Settles` says which words
come out, word by word, and `closeList_settles` that the loop gives them in some order.

Words without references and calls are left alone (`Settled`), so a list that has been
closed stays as it is under the variables of any later makefile (`closeList_settled`), and a
list that several modules refer to is as good as closed once (`closeAll_settles`).
-/

namespace BlogStuff.Adepends

open BlogStuff.Python

variable {env : Env} {fuel : Nat} {pool : VariablePool}

/-! ### What comes out of a list -/

/-- The words a list of words ends up as: the first word of each value, and what the
other words of the value end up as. -/
inductive Settles (env : Env) (fuel : Nat) (pool : VariablePool) : List Str → List Str → Prop
  | nil : Settles env fuel pool [] []
  | drop {w v : Str} {ws us : List Str} (hv : evalExpression env fuel pool w = some v)
      (hw : words v = []) (h : Settles env fuel pool ws us) : Settles env fuel pool (w :: ws) us
  | keep {w v u : Str} {vs xs ws us : List Str} (hv : evalExpression env fuel pool w = some v)
      (hw : words v = u :: vs) (hvs : Settles env fuel pool vs xs)
      (h : Settles env fuel pool ws us) : Settles env fuel pool (w :: ws) (u :: (xs ++ us))

theorem Settles.of_append {as bs us : List Str} (h : Settles env fuel pool (as ++ bs) us) :
    ∃ xs ys, Settles env fuel pool as xs ∧ Settles env fuel pool bs ys ∧ us = xs ++ ys := by
  induction as generalizing us with
  | nil => exact ⟨[], us, .nil, h, rfl⟩
  | cons w as ih =>
      rw [List.cons_append] at h
      cases h with
      | drop hv hw h =>
          obtain ⟨xs, ys, hxs, hys, rfl⟩ := ih h
          exact ⟨xs, ys, .drop hv hw hxs, hys, rfl⟩
      | keep hv hw hvs h =>
          obtain ⟨xs, ys, hxs, hys, rfl⟩ := ih h
          exact ⟨_, ys, .keep hv hw hvs hxs, hys, by simp⟩

/-- What a list ends up as is determined. By induction on how it got there; the value of a word
decides between the two rules. -/
theorem Settles.unique {ws us us' : List Str} (h : Settles env fuel pool ws us)
    (h' : Settles env fuel pool ws us') : us = us' := by
  induction h generalizing us' with
  | nil =>
      cases h'
      rfl
  | drop hv hw _ ih =>
      cases h' with
      | drop _ _ h' => exact ih h'
      | keep hv' hw' =>
          rw [hv] at hv'
          obtain rfl := Option.some.inj hv'
          rw [hw] at hw'
          cases hw'
  | keep hv hw _ _ ihvs ih =>
      cases h' with
      | drop hv' hw' =>
          rw [hv] at hv'
          obtain rfl := Option.some.inj hv'
          rw [hw] at hw'
          cases hw'
      | keep hv' hw' hvs' h' =>
          rw [hv] at hv'
          obtain rfl := Option.some.inj hv'
          obtain ⟨rfl, rfl⟩ := List.cons.inj (hw.symm.trans hw')
          rw [ihvs hvs', ih h']

/-- Induction over the turns of a loop that returns `l`: the queue is empty, the word in front
has no words, or its first word is done and the others go to the end. -/
theorem closeList_induction {motive : Nat → List Str → List Str → Prop} {l : List Str}
    (stop : ∀ n, motive (n + 1) l [])
    (drop : ∀ n done w todo v, evalExpression env fuel pool w = some v → words v = [] →
      motive n done todo → motive (n + 1) done (w :: todo))
    (keep : ∀ n done w todo v u vs, evalExpression env fuel pool w = some v → words v = u :: vs →
      motive n (done ++ [u]) (todo ++ vs) → motive (n + 1) done (w :: todo))
    {n : Nat} {done todo : List Str} (h : closeList env fuel pool n done todo = some l) :
    motive n done todo := by
  induction n generalizing done todo with
  | zero => cases h
  | succ n ih =>
      cases todo with
      | nil =>
          obtain rfl : done = l := Option.some.inj h
          exact stop n
      | cons w todo =>
          rw [closeList] at h
          obtain ⟨v, hv, hrest⟩ := Option.bind_eq_some_iff.mp h
          cases hw : words v with
          | nil =>
              rw [hw] at hrest
              exact drop n done w todo v hv hw (ih hrest)
          | cons u vs =>
              rw [hw] at hrest
              exact keep n done w todo v u vs hv hw (ih hrest)

/-- The loop gives these words, in some order, behind those that are done. The order is lost because
of the words of a value only the first takes its place, and the others go to the end of the queue.
-/
theorem closeList_settles {n : Nat} {done todo l : List Str}
    (h : closeList env fuel pool n done todo = some l) :
    ∃ us, Settles env fuel pool todo us ∧ l.Perm (done ++ us) := by
  refine closeList_induction (motive := fun _ done todo =>
    ∃ us, Settles env fuel pool todo us ∧ l.Perm (done ++ us)) ?_ ?_ ?_ h
  · intro n
    exact ⟨[], .nil, by simp⟩
  · intro n done w todo v hv hw ih
    obtain ⟨us, hus, hl⟩ := ih
    exact ⟨us, .drop hv hw hus, hl⟩
  · intro n done w todo v u vs hv hw ih
    obtain ⟨us, hus, hl⟩ := ih
    -- the words at the end of the queue come out last, not in their place
    obtain ⟨xs, ys, hxs, hys, rfl⟩ := hus.of_append
    refine ⟨u :: (ys ++ xs), .keep hv hw hys hxs, hl.trans ?_⟩
    rw [List.append_assoc, List.singleton_append]
    exact (List.perm_append_comm.cons u).append_left done

/-- Each word that comes out took a turn of the loop. -/
theorem length_closeList {n : Nat} {done todo l : List Str}
    (h : closeList env fuel pool n done todo = some l) : l.length < done.length + n := by
  refine closeList_induction (motive := fun n done _ => l.length < done.length + n) ?_ ?_ ?_ h
  · intro n
    exact Nat.lt_add_of_pos_right n.succ_pos
  · intro n done w todo v _ _ ih
    exact ih.trans (Nat.lt_succ_self _)
  · intro n done w todo v u vs _ _ ih
    rwa [List.length_append, List.length_singleton, Nat.add_assoc, Nat.add_comm 1] at ih

/-! ### Lists that stay as they are -/

/-- A word without references: evaluating it changes nothing, whatever the variables. -/
def Settled (w : Str) : Prop := searchRef w = none ∧ words w = [w]

theorem Settled.search_eq_none {w : Str} (h : Settled w) : functionCallRx.search w = none := by
  refine search_functionCallRx (.inr fun hmem => ?_)
  have hw := of_mem_words (h.2 ▸ List.mem_singleton.mpr rfl : w ∈ words w)
  exact absurd (hw.2.1 ' ' hmem) (by decide)

theorem Settled.evalExpression {w : Str} (h : Settled w) (fuel : Nat) (pool : VariablePool) :
    evalExpression env (fuel + 1) pool w = some w :=
  evalExpression_of_search h.1 h.search_eq_none fuel pool

theorem settled_of_mem_words {w v : Str} (hw : w ∈ words v) (hv : searchRef v = none) :
    Settled w := by
  obtain ⟨hne, hblank, -⟩ := of_mem_words hw
  exact ⟨searchRef_of_mem_words hw hv, words_of_forall hne hblank⟩

/-- A list of settled words is closed already: each is evaluated to itself, so the loop moves it
over and adds nothing to the queue. -/
theorem closeList_settled {n : Nat} {done todo : List Str} (h : ∀ w ∈ todo, Settled w)
    (hn : todo.length < n) :
    closeList env (fuel + 1) pool n done todo = some (done ++ todo) := by
  induction todo generalizing n done with
  | nil =>
      obtain ⟨m, rfl⟩ : ∃ m, n = m + 1 := ⟨n - 1, by simp at hn; omega⟩
      simp [closeList]
  | cons w todo ih =>
      obtain ⟨m, rfl⟩ : ∃ m, n = m + 1 := ⟨n - 1, by simp at hn; omega⟩
      have hw := h w (.head _)
      rw [closeList, hw.evalExpression, Option.bind_some, hw.2]
      simp only [List.append_nil]
      rw [ih (fun w hw => h w (.tail _ hw)) (by simpa using hn)]
      simp

/-! ### The loop over the pool -/

theorem closeAll_list_of_ne {items : List (Str × Nat)} {s s' : Store} {d : Nat}
    (h : closeAll env fuel pool items s = some s')
    (hd : ∀ p ∈ items, (s.module p.2).depends ≠ d) : s'.list d = s.list d := by
  induction items generalizing s with
  | nil =>
      obtain rfl : s = s' := Option.some.inj h
      rfl
  | cons p items ih =>
      obtain ⟨l, -, hrest⟩ := Option.bind_eq_some_iff.mp h
      rw [ih hrest fun q hq => hd q (.tail _ hq)]
      exact Function.update_of_ne (Ne.symm (hd p (.head _))) _ _

theorem settles_of_settled {ws : List Str} (h : ∀ w ∈ ws, Settled w) :
    Settles env (fuel + 1) pool ws ws := by
  induction ws with
  | nil => exact .nil
  | cons w ws ih =>
      obtain ⟨hw, hws⟩ := List.forall_mem_cons.mp h
      exact .keep (hw.evalExpression fuel pool) hw.2 .nil (ih hws)

/-- A list of settled words keeps its words however often it is closed. The loop may close a list
twice, because two names can stand for one module. -/
theorem closeAll_perm_of_settled {items : List (Str × Nat)} {s s' : Store} {d : Nat}
    (h : closeAll env fuel pool items s = some s') (hd : ∀ w ∈ s.list d, Settled w) :
    (s'.list d).Perm (s.list d) := by
  induction items generalizing s with
  | nil =>
      obtain rfl : s = s' := Option.some.inj h
      exact .refl _
  | cons p items ih =>
      obtain ⟨l, hl, hrest⟩ := Option.bind_eq_some_iff.mp h
      obtain ⟨us, hus, hperm⟩ := closeList_settles hl
      by_cases e : (s.module p.2).depends = d
      · subst e
        have hlist : (s.setList (s.module p.2).depends l).list (s.module p.2).depends = l :=
          Function.update_self ..
        cases fuel with
        | zero => cases hl
        | succ fuel =>
            rw [hus.unique (settles_of_settled hd), List.nil_append] at hperm
            have hl' : ∀ w ∈ l, Settled w := fun w hw => hd w (hperm.mem_iff.mp hw)
            have hlast := ih hrest (by rwa [hlist])
            rw [hlist] at hlast
            exact hlast.trans hperm
      · have hlist : (s.setList (s.module p.2).depends l).list d = s.list d :=
          Function.update_of_ne (Ne.symm e) _ _
        have hlast := ih hrest (by rwa [hlist])
        rwa [hlist] at hlast

/-- **A list the pool refers to is closed**, once for each module that refers to it. If the
words that come out the first time are settled, the other times change nothing. -/
theorem closeAll_settles {items : List (Str × Nat)} {s s' : Store} {d : Nat}
    (h : closeAll env fuel pool items s = some s')
    (hd : ∃ p ∈ items, (s.module p.2).depends = d) :
    ∃ us, Settles env fuel pool (s.list d) us ∧
      ((∀ u ∈ us, Settled u) → (s'.list d).Perm us) := by
  induction items generalizing s with
  | nil =>
      obtain ⟨p, hp, -⟩ := hd
      cases hp
  | cons q items ih =>
      obtain ⟨l, hl, hrest⟩ := Option.bind_eq_some_iff.mp h
      by_cases e : (s.module q.2).depends = d
      · subst e
        obtain ⟨us, hus, hperm⟩ := closeList_settles hl
        refine ⟨us, hus, fun hsettled => ?_⟩
        rw [List.nil_append] at hperm
        have hlist : (s.setList (s.module q.2).depends l).list (s.module q.2).depends = l :=
          Function.update_self ..
        have hlast := closeAll_perm_of_settled hrest (d := (s.module q.2).depends) (by
          rw [hlist]
          exact fun w hw => hsettled w (hperm.mem_iff.mp hw))
        rw [hlist] at hlast
        exact hlast.trans hperm
      · have hlist : (s.setList (s.module q.2).depends l).list d = s.list d :=
          Function.update_of_ne (Ne.symm e) _ _
        obtain ⟨p, hp, hpd⟩ := hd
        rcases List.mem_cons.mp hp with rfl | hp
        · exact absurd hpd e
        · rw [← hlist]
          exact ih hrest ⟨p, hp, hpd⟩

end BlogStuff.Adepends
