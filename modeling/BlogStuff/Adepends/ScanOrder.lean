import BlogStuff.Adepends.Sections

/-!
# BlogStuff.Adepends.ScanOrder

`parse_directory` over makefiles that define different modules: in which order does not matter.

Every `parse_makefile` closes the lists of all modules there are, with its own variables, so
two things have to hold.

* What a makefile adds does not depend on the modules that are there already. The run beside
  them is the run alone with all object numbers moved (`Beside`).
* What is there stays. A closed list consists of settled words, which evaluate to themselves
  under the variables of any makefile (`Store.Closed`), provided no function call was carried
  out when it was closed: the result of a call is not searched for references again.

So the pool is the union of what the makefiles give alone (`view_parseMakefile`).
-/

namespace BlogStuff.Adepends

open BlogStuff.Python

variable {env : Env} {fuel : Nat}

/-! ### What is compared -/

/-- What the pool says of a name: `src`, `directory` and `depends` of its module. -/
def Store.view (s : Store) (n : Str) : Option (Option Str × Str × List Str) :=
  (s.find n).map fun i => ((s.module i).src, (s.module i).directory, s.list (s.module i).depends)

/-- What a makefile says of a name if it is the only one. -/
def MkFile.view (env : Env) (fuel : Nat) (f : MkFile) (n : Str) :
    Option (Option Str × Str × List Str) :=
  (parseMakefile env fuel f Store.empty).bind fun s => s.view n

/-- The names of `LOCAL_MODULE`. -/
def moduleNames (env : Env) (fuel : Nat) (f : MkFile) : List Str :=
  ((f.read env fuel).map fun p => definedNames p.2).getD []

/-- With its variables put in, no word of a library line has a function call. -/
def noCalls (env : Env) (fuel : Nat) (f : MkFile) : Bool :=
  (f.read env fuel).all fun p =>
    (libWords p.2).all fun w =>
      (expandVar p.1.pool.vars fuel w).all fun e => (functionCallRx.search e).isNone

/-- Makefiles that can be parsed, define different modules and call no function for their
libraries. -/
structure Scannable (env : Env) (fuel : Nat) (files : List MkFile) : Prop where
  parses : ∀ f ∈ files, (parseMakefile env fuel f Store.empty).isSome
  names : files.Pairwise fun f g => ∀ n ∈ moduleNames env fuel f, n ∉ moduleNames env fuel g
  calls : ∀ f ∈ files, noCalls env fuel f = true

/-- The list of an entry of the pool. -/
def Store.listOf (s : Store) (p : Str × Nat) : List Str := s.list (s.module p.2).depends

/-! ### A run beside other modules -/

/-- The module with its list moved by `b`. -/
def Module.shift (b : Nat) (m : Module) : Module := { m with depends := b + m.depends }

/-- The store `s` holds the objects of `old`, and behind them those of `t`, with their numbers
shifted. A name of `old` hides the same name of `t`. -/
structure Store.Beside (old t s : Store) : Prop where
  next : s.next = old.next + t.next
  oldModule : ∀ i, i < old.next → s.module i = old.module i
  oldList : ∀ d, d < old.next → s.list d = old.list d
  module : ∀ i, i < t.next → s.module (old.next + i) = (t.module i).shift old.next
  list : ∀ d, d < t.next → s.list (old.next + d) = t.list d
  find : ∀ k, s.find k = (old.find k).or ((t.find k).map (old.next + ·))

namespace Store.Beside

variable {old t s : Store}

theorem empty (old : Store) : Beside old Store.empty old where
  next := rfl
  oldModule _ _ := rfl
  oldList _ _ := rfl
  module _ h := absurd h (Nat.not_lt_zero _)
  list _ h := absurd h (Nat.not_lt_zero _)
  find _ := Option.or_none.symm

theorem alloc (h : Beside old t s) (dir : Str) : Beside old (t.alloc dir) (s.alloc dir) := by
  have hnext := h.next
  -- the new objects are different from those there are
  have hold : ∀ i, i < old.next → i ≠ s.next := fun i hi => by omega
  have hnew : ∀ i, i ≠ t.next → old.next + i ≠ s.next := fun i hi => by omega
  refine ⟨?_, fun i hi => ?_, fun d hd => ?_, fun i hi => ?_, fun d hd => ?_, h.find⟩
  · simp only [Store.alloc, hnext]
    omega
  · simpa [Store.alloc, Function.update_of_ne (hold i hi)] using h.oldModule i hi
  · simpa [Store.alloc, Function.update_of_ne (hold d hd)] using h.oldList d hd
  · by_cases e : i = t.next
    · simp [Store.alloc, e, hnext, Module.shift]
    · have hlt : i < t.next := Nat.lt_of_le_of_ne (Nat.le_of_lt_succ hi) e
      simpa [Store.alloc, Function.update_of_ne e, Function.update_of_ne (hnew i e)] using
        h.module i hlt
  · by_cases e : d = t.next
    · simp [Store.alloc, e, hnext]
    · have hlt : d < t.next := Nat.lt_of_le_of_ne (Nat.le_of_lt_succ hd) e
      simpa [Store.alloc, Function.update_of_ne e, Function.update_of_ne (hnew d e)] using
        h.list d hlt

theorem set (h : Beside old t s) (c : Nat) (m : Module) :
    Beside old (t.set c m) (s.set (old.next + c) (m.shift old.next)) where
  next := h.next
  oldModule i hi := by
    have hne : i ≠ old.next + c := by omega
    simpa [Store.set, Function.update_of_ne hne] using h.oldModule i hi
  oldList := h.oldList
  module i hi := by
    by_cases e : i = c
    · simp [Store.set, e]
    · have hne : old.next + i ≠ old.next + c := by omega
      simpa [Store.set, Function.update_of_ne e, Function.update_of_ne hne] using h.module i hi
  list := h.list
  find := h.find

theorem setList (h : Beside old t s) (d : Nat) (l : List Str) :
    Beside old (t.setList d l) (s.setList (old.next + d) l) where
  next := h.next
  oldModule := h.oldModule
  oldList i hi := by
    have hne : i ≠ old.next + d := by omega
    simpa [Store.setList, Function.update_of_ne hne] using h.oldList i hi
  module := h.module
  list i hi := by
    by_cases e : i = d
    · simp [Store.setList, e]
    · have hne : old.next + i ≠ old.next + d := by omega
      simpa [Store.setList, Function.update_of_ne e, Function.update_of_ne hne] using h.list i hi
  find := h.find

theorem addModule (h : Beside old t s) {n : Str} (hn : old.find n = none) (i : Nat) :
    Beside old (t.addModule n i) (s.addModule n (old.next + i)) where
  next := by simpa using h.next
  oldModule := by simpa using h.oldModule
  oldList := by simpa using h.oldList
  module := by simpa using h.module
  list := by simpa using h.list
  find k := by
    rw [find_addModule, find_addModule, h.find k]
    by_cases e : k = n
    · subst e
      cases ht : t.find k with
      | none => simp [hn]
      | some j => simp [hn]
    · simp [e]

/-- A name that is not taken by the old modules is defined the same way. The search for it fails
among the old ones and goes on among the new, whose indices are shifted. -/
theorem define (h : Beside old t s) (hv : t.Valid) {c : Nat} (hc : c < t.next) {n : Str}
    (hn : old.find n = none) :
    Beside old (t.define c n).1 (s.define (old.next + c) n).1 ∧
      (s.define (old.next + c) n).2 = old.next + (t.define c n).2 := by
  have htarget : (s.define (old.next + c) n).2 = old.next + (t.define c n).2 := by
    show (s.find n).getD (old.next + c) = old.next + (t.find n).getD c
    rw [h.find n, hn]
    cases t.find n with
    | none => rfl
    | some i => rfl
  have hlt : (t.define c n).2 < t.next := (hv.define hc n).2
  refine ⟨?_, htarget⟩
  have hset := (h.set (t.define c n).2 { t.module (t.define c n).2 with
    name := some n, src := (t.module c).src, srcFrom := (t.module c).srcFrom,
    depends := (t.module c).depends }).addModule hn (t.define c n).2
  -- the module that is written has its list moved
  have hmodule : { s.module (s.define (old.next + c) n).2 with
      name := some n, src := (s.module (old.next + c)).src,
      srcFrom := (s.module (old.next + c)).srcFrom,
      depends := (s.module (old.next + c)).depends } =
      Module.shift old.next { t.module (t.define c n).2 with
        name := some n, src := (t.module c).src, srcFrom := (t.module c).srcFrom,
        depends := (t.module c).depends } := by
    rw [htarget, h.module _ hlt, h.module c hc]
    rfl
  rw [← htarget, ← hmodule] at hset
  exact hset

theorem apply (h : Beside old t s) (hv : t.Valid) {c : Nat} (hc : c < t.next) (dir : Str)
    {e : Effect} (he : ∀ n, e = .name n → old.find n = none) :
    Beside old (t.apply dir c e).1 (s.apply dir (old.next + c) e).1 ∧
      (s.apply dir (old.next + c) e).2 = old.next + (t.apply dir c e).2 := by
  cases e with
  | name n => exact h.define hv hc (he n rfl)
  | src v =>
      refine ⟨?_, rfl⟩
      have hset := h.set c { t.module c with src := some v, srcFrom := dir }
      have hmodule : { s.module (old.next + c) with src := some v, srcFrom := dir } =
          Module.shift old.next { t.module c with src := some v, srcFrom := dir } := by
        rw [h.module c hc]
        rfl
      rw [← hmodule] at hset
      exact hset
  | libs v =>
      refine ⟨?_, rfl⟩
      have hdepends : (s.module (old.next + c)).depends = old.next + (t.module c).depends := by
        rw [h.module c hc]
        rfl
      have hset := h.setList (t.module c).depends (t.list (t.module c).depends ++ words v)
      show Beside old _ (s.setList (s.module (old.next + c)).depends
        (s.list (s.module (old.next + c)).depends ++ words v))
      rw [hdepends, h.list _ (hv.depends_lt c hc)]
      exact hset
  | other => exact ⟨h, rfl⟩

/-- What is bound in the old store is bound to the same module, with the same list. -/
theorem old_entry (h : Beside old t s) (hv : old.Valid) {n : Str} {i : Nat}
    (hi : old.find n = some i) :
    s.find n = some i ∧ s.module i = old.module i ∧ s.listOf (n, i) = old.listOf (n, i) := by
  have hlt := hv.pool_lt n i hi
  refine ⟨by rw [h.find, hi]; rfl, h.oldModule i hlt, ?_⟩
  rw [listOf, listOf, h.oldModule i hlt, h.oldList _ (hv.depends_lt i hlt)]

/-- What is new is bound to the module of the other store, with its list. -/
theorem new_entry (h : Beside old t s) (hv : t.Valid) {n : Str} {i : Nat} (hn : old.find n = none)
    (hi : t.find n = some i) :
    s.find n = some (old.next + i) ∧ s.module (old.next + i) = (t.module i).shift old.next ∧
      s.listOf (n, old.next + i) = t.listOf (n, i) := by
  have hlt := hv.pool_lt n i hi
  refine ⟨by rw [h.find, hn, hi]; rfl, h.module i hlt, ?_⟩
  rw [listOf, listOf, h.module i hlt]
  exact h.list _ (hv.depends_lt i hlt)

end Store.Beside

/-- The same for sessions. -/
structure Session.Beside (old : Store) (t s : Session) : Prop where
  store : old.Beside t.store s.store
  current : s.current = t.current.map (old.next + ·)

namespace Session.Beside

variable {old : Store} {t s : Session}

theorem start (h : Session.Beside old t s) (dir : Str) :
    old.Beside (t.start dir).1 (s.start dir).1 ∧ (s.start dir).2 = old.next + (t.start dir).2 := by
  have hcurrent := h.current
  unfold Session.start
  cases hc : t.current with
  | none =>
      rw [hc, Option.map_none] at hcurrent
      rw [hcurrent]
      exact ⟨h.store.alloc dir, h.store.next⟩
  | some c =>
      rw [hc, Option.map_some] at hcurrent
      rw [hcurrent]
      exact ⟨h.store, rfl⟩

theorem act (h : Session.Beside old t s) (hv : t.Valid) (dir : Str) {e : Event}
    (he : ∀ n, e = .assign (.name n) → old.find n = none) :
    Session.Beside old (t.act dir e) (s.act dir e) := by
  cases e with
  | clear => exact ⟨h.store, rfl⟩
  | assign e =>
      obtain ⟨hstart, hc⟩ := h.start dir
      obtain ⟨hstore, hlt⟩ := hv.start dir
      obtain ⟨happly, hcurrent⟩ := hstart.apply hstore hlt dir fun n hn => he n (hn ▸ rfl)
      rw [← hc] at happly hcurrent
      exact ⟨happly, congrArg some hcurrent⟩

theorem run (h : Session.Beside old t s) (hv : t.Valid) (dir : Str) {es : List Event}
    (hes : ∀ n ∈ definedNames es, old.find n = none) :
    Session.Beside old (t.run dir es) (s.run dir es) := by
  induction es generalizing t s with
  | nil => exact h
  | cons e es ih =>
      have hfree : ∀ n, e = .assign (.name n) → old.find n = none := by
        intro n hn
        subst hn
        exact hes n List.mem_cons_self
      refine ih (h.act hv dir hfree) (hv.act dir e) fun n hn => hes n ?_
      obtain ⟨e', he', hn'⟩ := List.mem_filterMap.mp hn
      exact List.mem_filterMap.mpr ⟨e', .tail _ he', hn'⟩

end Session.Beside

/-! ### What a run alone consists of -/

/-- From no modules at all, names come from `LOCAL_MODULE` lines, by induction on the events: only
such a line binds a name, and only the one it has. -/
theorem mem_definedNames_of_find {dir n : Str} {i : Nat} {es : List Event}
    (h : (Session.run dir ⟨Store.empty, none⟩ es).store.find n = some i) : n ∈ definedNames es := by
  have hrun : ∀ n i, (Session.run dir ⟨Store.empty, none⟩ es).store.find n = some i →
      n ∈ definedNames es :=
    Session.run_induction (P := fun s => ∀ n i, s.store.find n = some i → n ∈ definedNames es)
      (fun n i h => by cases h) fun s e he hs n i h => by
      cases e with
      | clear => exact hs n i h
      | assign e =>
          by_cases hn : e = .name n
          · exact List.mem_filterMap.mpr ⟨_, he, by rw [hn]⟩
          · rw [Session.act_assign, Store.find_apply_of_ne hn, Session.find_start] at h
            exact hs n i h
  exact hrun n i h

/-- A new module has an empty list; the other lists are as before. -/
theorem Session.mem_list_start {s : Session} {dir w : Str} {d : Nat}
    (h : w ∈ (s.start dir).1.list d) : w ∈ s.store.list d := by
  rcases start_cases s dir with ⟨c, -, hstart⟩ | ⟨-, hstart⟩
  · rwa [hstart] at h
  · rw [hstart] at h
    by_cases hd : d = s.store.next
    · simp [Store.alloc, hd] at h
    · simpa [Store.alloc, Function.update_of_ne hd] using h

theorem Store.mem_list_apply {s : Store} {dir w : Str} {c d : Nat} {e : Effect}
    (h : w ∈ (s.apply dir c e).1.list d) : w ∈ s.list d ∨ ∃ v, e = .libs v ∧ w ∈ words v := by
  cases e with
  | name n =>
      rw [Store.apply, Store.list_define] at h
      exact .inl h
  | src v => exact .inl h
  | other => exact .inl h
  | libs v =>
      by_cases hd : d = (s.module c).depends
      · simp only [Store.apply, Store.setList, hd, Function.update_self, List.mem_append] at h
        exact h.imp (fun h => hd ▸ h) fun h => ⟨v, rfl, h⟩
      · simp only [Store.apply, Store.setList, Function.update_of_ne hd] at h
        exact .inl h

theorem mem_libWords_of_list {dir w : Str} {d : Nat} {es : List Event}
    (h : w ∈ (Session.run dir ⟨Store.empty, none⟩ es).store.list d) : w ∈ libWords es := by
  have hrun : ∀ d, ∀ w ∈ (Session.run dir ⟨Store.empty, none⟩ es).store.list d, w ∈ libWords es :=
    Session.run_induction (P := fun s => ∀ d, ∀ w ∈ s.store.list d, w ∈ libWords es)
      (fun d w h => absurd h List.not_mem_nil) fun s e he hs d w h => by
      cases e with
      | clear => exact hs d w h
      | assign e =>
          rw [Session.act_assign] at h
          rcases Store.mem_list_apply h with h | ⟨v, rfl, hw⟩
          · exact hs d w (Session.mem_list_start h)
          · exact List.mem_flatMap.mpr ⟨_, he, hw⟩
  exact hrun d w h

/-! ### Closing -/

/-- Closing carries out no function call on the word. -/
def NoCall (fuel : Nat) (pool : VariablePool) (w : Str) : Prop :=
  ∀ e, expandVar pool.vars fuel w = some e → functionCallRx.search e = none

theorem Settled.noCall {w : Str} (h : Settled w) (pool : VariablePool) : NoCall fuel pool w := by
  intro e he
  cases fuel with
  | zero => cases he
  | succ fuel =>
      rw [expandVar, h.1] at he
      obtain rfl := Option.some.inj he
      exact h.search_eq_none

/-- Without calls the words that come out are settled: expanding a word leaves no reference in it,
and the words it is cut into have none either. -/
theorem settled_of_closeList {pool : VariablePool} {n : Nat} {done todo l : List Str}
    (h : closeList env fuel pool n done todo = some l) (hdone : ∀ w ∈ done, Settled w)
    (htodo : ∀ w ∈ todo, NoCall fuel pool w) : ∀ w ∈ l, Settled w := by
  refine closeList_induction (motive := fun _ done todo => (∀ w ∈ done, Settled w) →
    (∀ w ∈ todo, NoCall fuel pool w) → ∀ w ∈ l, Settled w) ?_ ?_ ?_ h hdone htodo
  · exact fun n hdone _ => hdone
  · intro n done w todo v _ _ ih hdone htodo
    exact ih hdone fun w hw => htodo w (.tail _ hw)
  · intro n done w todo v u vs hv hw ih hdone htodo
    obtain ⟨e, he, hfun⟩ := Option.bind_eq_some_iff.mp hv
    rw [expandFun_of_search (htodo w (.head _) e he)] at hfun
    obtain rfl := Option.some.inj hfun
    have hwords : ∀ u ∈ words e, Settled u := fun u hu =>
      settled_of_mem_words hu (searchRef_expandVar he)
    rw [hw] at hwords
    obtain ⟨hu, hus⟩ := List.forall_mem_cons.mp hwords
    refine ih ?_ ?_
    · exact List.forall_mem_append.mpr ⟨hdone, List.forall_mem_singleton.mpr hu⟩
    · exact List.forall_mem_append.mpr
        ⟨fun w hw => htodo w (.tail _ hw), fun w hw => (hus w hw).noCall pool⟩

theorem closeList_again {pool pool' : VariablePool} {l l' : List Str}
    (h : closeList env fuel pool fuel [] l = some l') (hl' : ∀ w ∈ l', Settled w) :
    closeList env fuel pool' fuel [] l' = some l' := by
  have hlength := length_closeList h
  cases fuel with
  | zero => cases h
  | succ fuel => exact closeList_settled hl' (by simpa using hlength)

theorem exists_closeList_of_closeAll {pool : VariablePool} {items : List (Str × Nat)} {s s' : Store}
    (h : closeAll env fuel pool items s = some s') :
    ∀ p ∈ items, ∃ l, closeList env fuel pool fuel [] (s.listOf p) = some l := by
  induction items generalizing s with
  | nil => exact fun p hp => absurd hp List.not_mem_nil
  | cons q items ih =>
      obtain ⟨l, hl, hrest⟩ := Option.bind_eq_some_iff.mp h
      refine List.forall_mem_cons.mpr ⟨⟨l, hl⟩, fun p hp => ?_⟩
      by_cases hd : (s.module p.2).depends = (s.module q.2).depends
      · exact ⟨l, by rw [Store.listOf, hd]; exact hl⟩
      · obtain ⟨m, hm⟩ := ih hrest p hp
        refine ⟨m, ?_⟩
        have hlist : (s.setList (s.module q.2).depends l).listOf p = s.listOf p :=
          Function.update_of_ne hd _ _
        rwa [hlist] at hm

/-- If all lists close to settled words, the loop over the pool closes each of them, in whatever
order and however often they are met. -/
theorem closeAll_of_settled {pool : VariablePool} {items : List (Str × Nat)} {s : Store}
    (h : ∀ p ∈ items, ∃ l, closeList env fuel pool fuel [] (s.listOf p) = some l ∧
      ∀ w ∈ l, Settled w) :
    ∃ s', closeAll env fuel pool items s = some s' ∧
      ∀ p ∈ items, closeList env fuel pool fuel [] (s.listOf p) = some (s'.listOf p) ∧
        ∀ w ∈ s'.listOf p, Settled w := by
  induction items generalizing s with
  | nil => exact ⟨s, rfl, fun p hp => absurd hp List.not_mem_nil⟩
  | cons q items ih =>
      obtain ⟨⟨l, hl, hsettled⟩, hitems⟩ := List.forall_mem_cons.mp h
      have hagain : closeList env fuel pool fuel [] l = some l := closeList_again hl hsettled
      -- an entry with the same list finds it closed, the others find theirs as it was
      have hsame : ∀ p : Str × Nat, (s.module p.2).depends = (s.module q.2).depends →
          (s.setList (s.module q.2).depends l).listOf p = l ∧ s.listOf p = s.listOf q := by
        intro p hd
        simp [Store.listOf, Store.setList, hd]
      have hother : ∀ p : Str × Nat, (s.module p.2).depends ≠ (s.module q.2).depends →
          (s.setList (s.module q.2).depends l).listOf p = s.listOf p :=
        fun p hd => Function.update_of_ne hd _ _
      obtain ⟨s', hclose, hs'⟩ := ih (s := s.setList (s.module q.2).depends l) fun p hp => by
        by_cases hd : (s.module p.2).depends = (s.module q.2).depends
        · exact ⟨l, by rw [(hsame p hd).1, hagain], hsettled⟩
        · rw [hother p hd]
          exact hitems p hp
      have hmodule : s'.module = s.module := (closeAll_eq hclose).1
      have hq : s'.list (s.module q.2).depends = l := by
        by_cases hex : ∃ p ∈ items, (s.module p.2).depends = (s.module q.2).depends
        · obtain ⟨p, hp, hd⟩ := hex
          have hp' := (hs' p hp).1
          rw [(hsame p hd).1, hagain, Store.listOf, hmodule, hd] at hp'
          exact (Option.some.inj hp').symm
        · have hfree := closeAll_list_of_ne hclose fun p hp hd => hex ⟨p, hp, hd⟩
          rw [hfree]
          exact Function.update_self _ _ _
      refine ⟨s', by rw [closeAll]; exact Option.bind_eq_some_iff.mpr ⟨l, hl, hclose⟩, fun p hp => ?_⟩
      by_cases hd : (s.module p.2).depends = (s.module q.2).depends
      · have hp' : s'.listOf p = l := by rw [Store.listOf, hmodule, hd, hq]
        rw [(hsame p hd).2, hp']
        exact ⟨hl, hsettled⟩
      · rcases List.mem_cons.mp hp with rfl | hp
        · exact absurd rfl hd
        · rw [← hother p hd]
          exact hs' p hp

/-! ### One makefile -/

/-- The lists of the pool consist of settled words, few enough for the loop. -/
def Store.Closed (fuel : Nat) (s : Store) : Prop :=
  ∀ p ∈ s.pool, (s.listOf p).length < fuel ∧ ∀ w ∈ s.listOf p, Settled w

theorem Store.Closed.closeList {s : Store} (h : s.Closed fuel) (env : Env) (pool : VariablePool)
    {p : Str × Nat} (hp : p ∈ s.pool) :
    closeList env fuel pool fuel [] (s.listOf p) = some (s.listOf p) := by
  obtain ⟨hlt, hsettled⟩ := h p hp
  cases fuel with
  | zero => cases hlt
  | succ fuel => exact closeList_settled hsettled hlt

theorem closed_of_closeAll {pool : VariablePool} {s s' : Store}
    (h : closeAll env fuel pool (env.items s.pool) s = some s')
    (hlists : ∀ p ∈ s.pool, closeList env fuel pool fuel [] (s.listOf p) = some (s'.listOf p) ∧
      ∀ w ∈ s'.listOf p, Settled w) : s'.Closed fuel := by
  intro p hp
  rw [(closeAll_eq h).2.2] at hp
  obtain ⟨hlist, hsettled⟩ := hlists p hp
  exact ⟨by simpa using length_closeList hlist, hsettled⟩

/-- Without calls the loop over the pool closes every list to settled words. -/
theorem closeList_of_closeAll {pool : VariablePool} {s s' : Store}
    (h : closeAll env fuel pool (env.items s.pool) s = some s')
    (hcalls : ∀ d, ∀ w ∈ s.list d, NoCall fuel pool w) (p : Str × Nat) (hp : p ∈ s.pool) :
    closeList env fuel pool fuel [] (s.listOf p) = some (s'.listOf p) ∧
      ∀ w ∈ s'.listOf p, Settled w := by
  have hsettled : ∀ p ∈ env.items s.pool, ∃ l,
      closeList env fuel pool fuel [] (s.listOf p) = some l ∧ ∀ w ∈ l, Settled w := by
    intro p hp
    obtain ⟨l, hl⟩ := exists_closeList_of_closeAll h p hp
    exact ⟨l, hl, settled_of_closeList hl (fun w hw => absurd hw List.not_mem_nil) (hcalls _)⟩
  obtain ⟨s'', hs'', hlists⟩ := closeAll_of_settled hsettled
  obtain rfl := Option.some.inj (h.symm.trans hs'')
  exact hlists p ((env.items_perm _).mem_iff.mpr hp)

/-- The pool behind the loop, by the one in front of it. -/
theorem view_closeAll {pool : VariablePool} {items : List (Str × Nat)} {s s' : Store}
    (h : closeAll env fuel pool items s = some s') (n : Str) :
    s'.view n =
      (s.find n).map fun i => ((s.module i).src, (s.module i).directory, s'.listOf (n, i)) := by
  rw [Store.view, closeAll_find h]
  simp only [Store.listOf, (closeAll_eq h).1]

theorem noCall_of_noCalls {f : MkFile} {r : Reader} {es : List Event}
    (hread : f.read env fuel = some (r, es)) (h : noCalls env fuel f = true) :
    ∀ w ∈ libWords es, NoCall fuel r.pool w := by
  intro w hw e he
  rw [noCalls, hread, Option.all_some, List.all_eq_true] at h
  have hcall := h w hw
  rw [he, Option.all_some] at hcall
  exact Option.isNone_iff_eq_none.mp hcall

section

variable {pool : VariablePool} {old t s t' : Store}

/-- Beside closed modules the loop over the pool closes the lists that it closes alone. A list of an
old module is settled and does not change, whatever the variables of the new makefile are. -/
theorem closeAll_beside (h : old.Beside t s) (hold : old.Valid) (ht : t.Valid) (hs : s.Valid)
    (hclosed : old.Closed fuel)
    (hown : ∀ p ∈ t.pool, closeList env fuel pool fuel [] (t.listOf p) = some (t'.listOf p) ∧
      ∀ w ∈ t'.listOf p, Settled w) :
    ∃ s', closeAll env fuel pool (env.items s.pool) s = some s' ∧
      ∀ p ∈ s.pool, closeList env fuel pool fuel [] (s.listOf p) = some (s'.listOf p) ∧
        ∀ w ∈ s'.listOf p, Settled w := by
  have hlists : ∀ p ∈ env.items s.pool, ∃ l,
      closeList env fuel pool fuel [] (s.listOf p) = some l ∧ ∀ w ∈ l, Settled w := by
    intro p hp
    have hfind := hs.mem_pool.mp ((env.items_perm _).mem_iff.mp hp)
    rw [h.find, Option.or_eq_some_iff] at hfind
    rcases hfind with hi | ⟨hn, hi⟩
    · have hmem : p ∈ old.pool := hold.mem_pool.mpr hi
      obtain ⟨-, -, hlist⟩ := h.old_entry hold hi
      rw [hlist]
      exact ⟨_, hclosed.closeList env pool hmem, (hclosed p hmem).2⟩
    · obtain ⟨i, hi, hp2⟩ := Option.map_eq_some_iff.mp hi
      obtain ⟨-, -, hlist⟩ := h.new_entry ht hn hi
      have hpair : (p.1, old.next + i) = p := by rw [hp2]
      rw [← hpair, hlist]
      exact ⟨_, hown _ (ht.mem_pool.mpr hi)⟩
  obtain ⟨s', hs', hsame⟩ := closeAll_of_settled hlists
  exact ⟨s', hs', fun p hp => hsame p ((env.items_perm _).mem_iff.mpr hp)⟩

/-- Then the pool is the old one and the new one together: a name is an old module, or one of the
new ones that only moved. -/
theorem view_beside {s' : Store} (h : old.Beside t s) (hold : old.Valid) (ht : t.Valid)
    (hs : s.Valid) (hclosed : old.Closed fuel)
    (hown : ∀ p ∈ t.pool, closeList env fuel pool fuel [] (t.listOf p) = some (t'.listOf p))
    (hclose : closeAll env fuel pool (env.items t.pool) t = some t')
    (hclose' : closeAll env fuel pool (env.items s.pool) s = some s')
    (hsame : ∀ p ∈ s.pool, closeList env fuel pool fuel [] (s.listOf p) = some (s'.listOf p))
    (n : Str) : s'.view n = (old.view n).or (t'.view n) := by
  rw [view_closeAll hclose', view_closeAll hclose]
  cases hi : old.find n with
  | some i =>
      obtain ⟨hfind, hmodule, hlist⟩ := h.old_entry hold hi
      have hkept : s'.listOf (n, i) = old.listOf (n, i) := by
        have hnow := hsame _ (hs.mem_pool.mpr hfind)
        rw [hlist, hclosed.closeList env pool (hold.mem_pool.mpr hi)] at hnow
        exact (Option.some.inj hnow).symm
      rw [Store.view, hi, hfind, Option.map_some, Option.map_some, Option.some_or, hkept, hmodule]
      rfl
  | none =>
      rw [Store.view, hi, Option.map_none, Option.none_or]
      cases hj : t.find n with
      | none =>
          rw [h.find, hi, hj]
          rfl
      | some j =>
          obtain ⟨hfind, hmodule, hlist⟩ := h.new_entry ht hi hj
          have hkept : s'.listOf (n, old.next + j) = t'.listOf (n, j) := by
            have hnow := hsame _ (hs.mem_pool.mpr hfind)
            rw [hlist, hown _ (ht.mem_pool.mpr hj)] at hnow
            exact (Option.some.inj hnow).symm
          rw [hfind, Option.map_some, Option.map_some, hkept, hmodule]
          rfl

end

theorem moduleNames_eq {f : MkFile} {r : Reader} {es : List Event}
    (hread : f.read env fuel = some (r, es)) : moduleNames env fuel f = definedNames es := by
  rw [moduleNames, hread]
  rfl

/-- **A makefile adds what it gives alone** to modules it does not define, and leaves them as
they are. The two runs are followed side by side: the objects of the second have the numbers
of the first, moved up by those that were there before. -/
theorem view_parseMakefile {f : MkFile} {old t' : Store} (hold : old.Valid)
    (hclosed : old.Closed fuel) (halone : parseMakefile env fuel f Store.empty = some t')
    (hcalls : noCalls env fuel f = true)
    (hfree : ∀ n ∈ moduleNames env fuel f, old.find n = none) :
    ∃ s', parseMakefile env fuel f old = some s' ∧ s'.Closed fuel ∧
      ∀ n, s'.view n = (old.view n).or (t'.view n) := by
  obtain ⟨r, es, hread, hclose⟩ := parseMakefile_eq_some.mp halone
  rw [moduleNames_eq hread] at hfree
  have hstart : Session.Beside old ⟨Store.empty, none⟩ ⟨old, none⟩ := ⟨.empty old, rfl⟩
  have hempty := Session.valid_of_store Store.valid_empty
  have hbeside := (hstart.run hempty f.dir hfree).store
  have ht := (hempty.run f.dir es).store
  have hs := ((Session.valid_of_store hold).run f.dir es).store
  have hown := closeList_of_closeAll hclose fun d w hw =>
    noCall_of_noCalls hread hcalls w (mem_libWords_of_list hw)
  obtain ⟨s', hs', hsame⟩ := closeAll_beside hbeside hold ht hs hclosed hown
  exact ⟨s', parseMakefile_eq_some.mpr ⟨r, es, hread, hs'⟩, closed_of_closeAll hs' hsame,
    view_beside hbeside hold ht hs hclosed (fun p hp => (hown p hp).1) hclose hs'
      fun p hp => (hsame p hp).1⟩

/-! ### All makefiles -/

theorem Store.view_eq_none_iff {s : Store} {n : Str} : s.view n = none ↔ s.find n = none :=
  Option.map_eq_none_iff

/-- A makefile alone gives only the names of its `LOCAL_MODULE` lines. -/
theorem mem_moduleNames_of_view {f : MkFile} {t' : Store} {n : Str}
    (halone : parseMakefile env fuel f Store.empty = some t') (h : t'.view n ≠ none) :
    n ∈ moduleNames env fuel f := by
  obtain ⟨r, es, hread, hclose⟩ := parseMakefile_eq_some.mp halone
  rw [Ne, Store.view_eq_none_iff, closeAll_find hclose] at h
  obtain ⟨i, hi⟩ := Option.ne_none_iff_exists'.mp h
  rw [moduleNames_eq hread]
  exact mem_definedNames_of_find hi

/-- What `parse_directory` makes of the makefiles, from a pool that has none of their modules. By
induction on the makefiles: each one is parsed beside what the ones before it left, as if it were
alone. -/
theorem view_foldlM {files : List MkFile} {old : Store} (h : Scannable env fuel files)
    (hold : old.Valid) (hclosed : old.Closed fuel)
    (hfree : ∀ f ∈ files, ∀ n ∈ moduleNames env fuel f, old.find n = none) :
    ∃ s, files.foldlM (fun s f => parseMakefile env fuel f s) old = some s ∧
      s.Valid ∧ s.Closed fuel ∧
      ∀ n v, s.view n = some v ↔ old.view n = some v ∨ ∃ f ∈ files, f.view env fuel n = some v := by
  induction files generalizing old with
  | nil => exact ⟨old, rfl, hold, hclosed, by simp⟩
  | cons f files ih =>
      obtain ⟨t', ht'⟩ := Option.isSome_iff_exists.mp (h.parses f (.head _))
      obtain ⟨hfirst, hnames⟩ := List.pairwise_cons.mp h.names
      obtain ⟨s₁, hs₁, hclosed₁, hview⟩ := view_parseMakefile hold hclosed ht' (h.calls f (.head _))
        (hfree f (.head _))
      have hrest : Scannable env fuel files :=
        ⟨fun g hg => h.parses g (.tail _ hg), hnames, fun g hg => h.calls g (.tail _ hg)⟩
      -- the first makefile takes no name of the others
      have hfree₁ : ∀ g ∈ files, ∀ n ∈ moduleNames env fuel g, s₁.find n = none := by
        intro g hg n hn
        rw [← Store.view_eq_none_iff, hview, Option.or_eq_none_iff, Store.view_eq_none_iff]
        refine ⟨hfree g (.tail _ hg) n hn, ?_⟩
        by_contra hsome
        exact hfirst g hg n (mem_moduleNames_of_view ht' hsome) hn
      obtain ⟨s, hs, hvalid, hclosed', hiff⟩ :=
        ih hrest (hold.parseMakefile hs₁) hclosed₁ hfree₁
      refine ⟨s, ?_, hvalid, hclosed', fun n v => ?_⟩
      · rw [List.foldlM_cons, hs₁]
        exact hs
      · have hown : f.view env fuel n = t'.view n := by rw [MkFile.view, ht', Option.bind_some]
        have hor : s₁.view n = some v ↔ old.view n = some v ∨ f.view env fuel n = some v := by
          rw [hview, hown, Option.or_eq_some_iff]
          refine or_congr_right (and_iff_right_of_imp fun hv => ?_)
          rw [Store.view_eq_none_iff]
          exact hfree f (.head _) n (mem_moduleNames_of_view ht' (by simp [hv]))
        rw [hiff, hor, or_assoc]
        simp

theorem Store.closed_empty : Store.empty.Closed fuel := fun _ hp => absurd hp List.not_mem_nil

theorem Scannable.perm {files files' : List MkFile} (h : Scannable env fuel files)
    (hperm : files'.Perm files) : Scannable env fuel files' where
  parses f hf := h.parses f (hperm.mem_iff.mp hf)
  names := (hperm.pairwise_iff fun hfg n hn hn' => hfg n hn' hn).mpr h.names
  calls f hf := h.calls f (hperm.mem_iff.mp hf)

/-- The pool is the union of what the makefiles give alone. -/
theorem view_parseDirectory {files : List MkFile} (h : Scannable env fuel files) :
    ∃ s, parseDirectory env fuel files = some s ∧
      ∀ n v, s.view n = some v ↔ ∃ f ∈ files, f.view env fuel n = some v := by
  obtain ⟨s, hs, -, -, hiff⟩ := view_foldlM h Store.valid_empty Store.closed_empty fun _ _ _ _ => rfl
  refine ⟨s, hs, fun n v => (hiff n v).trans (or_iff_right ?_)⟩
  simp [Store.view, Store.empty, Store.find]

/-- **The order of the makefiles does not matter, and one more makefile changes none of the
modules that are there.** What is seen of a name is what the one makefile that defines it
gives alone (`view_parseDirectory`), and this does not mention the order. -/
theorem parseDirectory_perm {files : List MkFile} (h : Scannable env fuel files) :
    ∃ s, parseDirectory env fuel files = some s ∧
      (∀ files', files'.Perm files →
        ∃ s', parseDirectory env fuel files' = some s' ∧ s'.view = s.view) ∧
      ∀ f, Scannable env fuel (files ++ [f]) →
        ∃ s', parseMakefile env fuel f s = some s' ∧
          ∀ n v, s.view n = some v → s'.view n = some v := by
  obtain ⟨s, hs, hview⟩ := view_parseDirectory h
  refine ⟨s, hs, fun files' hperm => ?_, fun f hf => ?_⟩
  · obtain ⟨s', hs', hview'⟩ := view_parseDirectory (h.perm hperm)
    refine ⟨s', hs', funext fun n => Option.ext fun v => ?_⟩
    rw [hview, hview']
    exact exists_congr fun f => and_congr_left' hperm.mem_iff
  · obtain ⟨s', hs', hview'⟩ := view_parseDirectory hf
    rw [parseDirectory, List.foldlM_append] at hs'
    rw [parseDirectory] at hs
    rw [hs] at hs'
    refine ⟨s', by simpa using hs', fun n v hv => ?_⟩
    obtain ⟨g, hg, hgv⟩ := (hview n v).mp hv
    exact (hview' n v).mpr ⟨g, List.mem_append_left _ hg, hgv⟩

/-- A makefile with one section, whose library line has a reference to two words. -/
def oneSection : MkFile :=
  ⟨"p/Android.mk".toList, ["include $(CLEAR_VARS)".toList, "X := a b".toList,
    "LOCAL_MODULE := m".toList, "LOCAL_STATIC_LIBRARIES := $(X) c".toList]⟩

/-- A makefile that uses a variable of the same name for another module. -/
def otherSection : MkFile :=
  ⟨"q/Android.mk".toList, ["X := m".toList, "LOCAL_MODULE := k".toList,
    "LOCAL_SRC_FILES := k.c".toList, "LOCAL_SHARED_LIBRARIES := $(X) $(Y)".toList]⟩

theorem parseDirectory_perm_two :
    ∃ s, parseDirectory Env.bare 9 [oneSection, otherSection] = some s ∧
      ∃ s', parseDirectory Env.bare 9 [otherSection, oneSection] = some s' ∧ s'.view = s.view := by
  have h : Scannable Env.bare 9 [oneSection, otherSection] :=
    ⟨by decide, by decide, by decide⟩
  obtain ⟨s, hs, hperm, -⟩ := parseDirectory_perm h
  exact ⟨s, hs, hperm _ (.swap _ _ _)⟩

/-- A makefile without function calls, whose variables make one when they are put together. The
call leaves a reference to `Z` behind. -/
def callInPieces : MkFile :=
  ⟨"p/Android.mk".toList, ["P = $(".toList, "Q = addprefix $(,Z))".toList,
    "LOCAL_MODULE := m".toList, "LOCAL_STATIC_LIBRARIES := $(P)$(Q)".toList]⟩

/-- A makefile that has a variable `Z`. -/
def hasZ : MkFile := ⟨"q/Android.mk".toList, ["Z := z".toList, "LOCAL_MODULE := k".toList]⟩

/-- Here the order matters: the second makefile puts its `Z` into the list of the first. -/
theorem order_matters :
    (∀ f ∈ [callInPieces, hasZ], (parseMakefile Env.bare 9 f Store.empty).isSome ∧
        ∀ l ∈ f.lines, functionCallRx.search l = none) ∧
      (∀ n ∈ moduleNames Env.bare 9 callInPieces, n ∉ moduleNames Env.bare 9 hasZ) ∧
      (parseDirectory Env.bare 9 [callInPieces, hasZ]).bind (·.view "m".toList) =
        some (none, "p".toList, ["z".toList]) ∧
      (parseDirectory Env.bare 9 [hasZ, callInPieces]).bind (·.view "m".toList) =
        some (none, "p".toList, ["$(Z)".toList]) := by
  decide +kernel

end BlogStuff.Adepends
