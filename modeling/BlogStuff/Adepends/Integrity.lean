import BlogStuff.Adepends.Modules

/-!
# BlogStuff.Adepends.Integrity

Two invariants of the module pool over any sequence of makefiles.

*Names.* Every name of the pool stands for a module of that name, and no module stands
under two names. A second `LOCAL_MODULE` line in a section breaks it: the module is in
the pool already, and gets another name and another entry. Entries are never removed, so
what is shared once stays shared (`Shared.run`); that makes the condition on the single
steps exact (`intact_iff`).

*Sources.* The directory of a module is that of the makefile its sources come from. A
redefinition takes over the sources and keeps the directory, so it has to come from a
makefile in the same directory (`SrcSafe`).

Conditions on every step of a run are stated with `Always` and `AlwaysFiles`.
-/

namespace BlogStuff.Adepends

open BlogStuff.Python

/-! ### Conditions on every step -/

/-- Each event meets a condition where it occurs. -/
def Session.Always (dir : Str) (C : Session → Event → Prop) : Session → List Event → Prop
  | _, [] => True
  | s, e :: es => C s e ∧ Session.Always dir C (s.act dir e) es

/-- Each event of some makefiles meets a condition, which may mention the directory of
its makefile. -/
def AlwaysFiles (env : Env) (fuel : Nat) (C : Str → Session → Event → Prop) :
    Store → List MkFile → Prop
  | _, [] => True
  | s, f :: fs =>
      (∀ r es, f.read env fuel = some (r, es) → Session.Always f.dir (C f.dir) ⟨s, none⟩ es) ∧
        ∀ s', parseMakefile env fuel f s = some s' → AlwaysFiles env fuel C s' fs

theorem Session.Always.run {dir : Str} {C : Session → Event → Prop} {P : Session → Prop}
    {s : Session} {es : List Event} (h : Session.Always dir C s es) (hs : P s)
    (hstep : ∀ s e, C s e → P s → P (s.act dir e)) : P (s.run dir es) := by
  induction es generalizing s with
  | nil => exact hs
  | cons e es ih => exact ih h.2 (hstep s e h.1 hs)

/-- What makefiles keep holds after some makefiles. -/
theorem foldlM_induction {env : Env} {fuel : Nat} {P : Store → List MkFile → Prop}
    {s s' : Store} {files : List MkFile}
    (h : files.foldlM (fun s f => parseMakefile env fuel f s) s = some s') (hs : P s files)
    (hstep : ∀ s f fs s', P s (f :: fs) → parseMakefile env fuel f s = some s' → P s' fs) :
    P s' [] := by
  induction files generalizing s with
  | nil =>
      obtain rfl : s = s' := Option.some.inj h
      exact hs
  | cons f fs ih =>
      rw [List.foldlM_cons] at h
      obtain ⟨s₁, h₁, h₂⟩ := Option.bind_eq_some_iff.mp h
      exact ih h₂ (hstep s f fs s₁ hs h₁)

/-! ### Names -/

/-- Every name stands for a module of that name, different names for different modules. -/
def Store.Intact (s : Store) : Prop :=
  (∀ k i, s.find k = some i → (s.module i).name = some k) ∧
    ∀ k k' i, s.find k = some i → s.find k' = some i → k = k'

/-- One module stands under two names. -/
def Store.Shared (s : Store) : Prop := ∃ k k' i, k ≠ k' ∧ s.find k = some i ∧ s.find k' = some i

theorem Store.Shared.not_intact {s : Store} (h : s.Shared) : ¬ s.Intact := by
  intro hi
  obtain ⟨k, k', i, hne, hk, hk'⟩ := h
  exact hne (hi.2 k k' i hk hk')

theorem Store.intact_of_names {s : Store}
    (h : ∀ k i, s.find k = some i → (s.module i).name = some k) : s.Intact := by
  refine ⟨h, fun k k' i hk hk' => ?_⟩
  exact Option.some.inj ((h k i hk).symm.trans (h k' i hk'))

/-- A `LOCAL_MODULE` line repeats a name of the pool, or names a module without one. -/
def Session.NameSafe (s : Session) : Event → Prop
  | .assign (.name n) =>
      s.store.find n ≠ none ∨ ∀ c, s.current = some c → (s.store.module c).name = none
  | _ => True

/-- The current module is in the pool once it has a name. -/
def Session.Registered (s : Session) : Prop :=
  ∀ c k, s.current = some c → (s.store.module c).name = some k → s.store.find k = some c

namespace Session

variable {s : Session} {dir : Str}

theorem Valid.intact_start (h : s.Valid) (hi : s.store.Intact) : (s.start dir).1.Intact := by
  refine Store.intact_of_names fun k i hk => ?_
  rw [find_start] at hk
  rw [module_start_of_lt (h.store.pool_lt k i hk)]
  exact hi.1 k i hk

theorem name_start_of_none (h : s.current = none) :
    ((s.start dir).1.module (s.start dir).2).name = none := by
  rcases start_cases s dir with ⟨c, hc, -⟩ | ⟨-, hstart⟩
  · rw [h] at hc
    cases hc
  · rw [hstart]
    simp [Store.alloc]

/-- The step of the invariant. Only a `LOCAL_MODULE` line writes a name: to the module that is
already found under it, or to the current one, which had none. -/
theorem Valid.intact_act (h : s.Valid) {e : Event} (hi : s.store.Intact) (hsafe : s.NameSafe e) :
    (s.act dir e).store.Intact := by
  have hstart : (s.start dir).1.Intact := h.intact_start hi
  cases e with
  | clear => exact hi
  | assign e =>
      by_cases he : ∃ n, e = .name n
      · obtain ⟨n, rfl⟩ := he
        -- if the name is new, the module that gets it had none
        have hnew : (s.start dir).1.find n = none →
            ((s.start dir).1.module (s.start dir).2).name = none := by
          intro hn
          rw [find_start] at hn
          rcases start_cases s dir with ⟨c, hc, hst⟩ | ⟨hc, -⟩
          · rw [hst]
            exact hsafe.resolve_left (fun hne => hne hn) c hc
          · exact name_start_of_none hc
        refine Store.intact_of_names fun k i hk => ?_
        rw [act_assign, Store.apply] at hk ⊢
        rw [Store.find_define, Option.or_eq_some_iff] at hk
        rcases hk with hk | ⟨-, hk⟩
        · by_cases hit : i = ((s.start dir).1.define (s.start dir).2 n).2
          · rw [hit, Store.module_define_self]
            cases hn : (s.start dir).1.find n with
            | none =>
                obtain rfl : i = (s.start dir).2 := by simpa [Store.define, hn] using hit
                rw [hstart.1 k _ hk] at hnew
                cases hnew hn
            | some t =>
                obtain rfl : i = t := by simpa [Store.define, hn] using hit
                rw [hstart.2 k n i hk hn]
          · rw [Store.module_define_of_ne hit]
            exact hstart.1 k i hk
        · split_ifs at hk with hkn
          obtain rfl := Option.some.inj hk
          rw [hkn]
          exact congrArg Module.name (Store.module_define_self _ _ n)
      · have hne : ∀ n, e ≠ .name n := fun n hn => he ⟨n, hn⟩
        refine Store.intact_of_names fun k i hk => ?_
        rw [act_assign, Store.find_apply_of_ne (hne k)] at hk
        exact (Store.name_apply hne i).trans (hstart.1 k i hk)

theorem Registered.act (h : s.Registered) (e : Event) : (s.act dir e).Registered := by
  cases e with
  | clear =>
      intro c k hc
      cases hc
  | assign e =>
      intro c k hc hk
      rw [act_assign] at hc hk ⊢
      obtain rfl := Option.some.inj hc
      by_cases he : ∃ n, e = .name n
      · obtain ⟨n, rfl⟩ := he
        rw [Store.apply, Store.module_define_self] at hk
        obtain rfl : n = k := Option.some.inj hk
        exact Store.find_define_self _ _ n
      · have hne : ∀ n, e ≠ .name n := fun n hn => he ⟨n, hn⟩
        rw [Store.name_apply hne, Store.current_apply hne] at hk
        rw [Store.find_apply_of_ne (hne k), Store.current_apply hne, find_start]
        rcases start_cases s dir with ⟨c, hc, hst⟩ | ⟨hc, -⟩
        · rw [hst] at hk ⊢
          exact h c k hc hk
        · rw [name_start_of_none hc] at hk
          cases hk

/-- A line that is not safe puts the current module under a second name: the name is new, and
`find_module` still finds the module under the first one. -/
theorem Registered.shared_act (h : s.Registered) {e : Event} (hsafe : ¬ s.NameSafe e) :
    (s.act dir e).store.Shared := by
  cases e with
  | clear => exact absurd trivial hsafe
  | assign e =>
      cases e with
      | src v => exact absurd trivial hsafe
      | libs v => exact absurd trivial hsafe
      | other => exact absurd trivial hsafe
      | name n =>
          obtain ⟨hn, hc⟩ := not_or.mp hsafe
          have hn : s.store.find n = none := not_not.mp hn
          obtain ⟨c, hc⟩ := not_forall.mp hc
          obtain ⟨hc, hname⟩ := Classical.not_imp.mp hc
          obtain ⟨k, hk⟩ := Option.ne_none_iff_exists'.mp hname
          have hfind := h c k hc hk
          have hstart : s.start dir = (s.store, c) := by rw [start, hc]
          refine ⟨k, n, c, ?_, find_act hfind, ?_⟩
          · rintro rfl
            rw [hn] at hfind
            cases hfind
          · rw [act_assign, hstart, Store.apply, Store.find_define, hn]
            simp

theorem Shared.act (h : s.store.Shared) (e : Event) : (s.act dir e).store.Shared := by
  obtain ⟨k, k', i, hne, hk, hk'⟩ := h
  exact ⟨k, k', i, hne, find_act hk, find_act hk'⟩

theorem Shared.run (h : s.store.Shared) (dir : Str) (es : List Event) :
    (s.run dir es).store.Shared :=
  run_induction (P := fun s => s.store.Shared) h fun _ e _ hs => Shared.act hs e

theorem Registered.shared_run (h : s.Registered) {es : List Event}
    (hsafe : ¬ Always dir NameSafe s es) : (s.run dir es).store.Shared := by
  induction es generalizing s with
  | nil => exact absurd trivial hsafe
  | cons e es ih =>
      by_cases he : s.NameSafe e
      · exact ih (h.act e) fun hes => hsafe ⟨he, hes⟩
      · exact Shared.run (h.shared_act he) dir es

end Session

section

variable {env : Env} {fuel : Nat}

theorem Store.Shared.parseMakefile {s s' : Store} {f : MkFile} (h : s.Shared)
    (hparse : parseMakefile env fuel f s = some s') : s'.Shared := by
  obtain ⟨r, es, -, hclose⟩ := parseMakefile_eq_some.mp hparse
  obtain ⟨k, k', i, hne, hk, hk'⟩ := Session.Shared.run (s := ⟨s, none⟩) h f.dir es
  exact ⟨k, k', i, hne, (closeAll_find hclose k).trans hk, (closeAll_find hclose k').trans hk'⟩

/-- A makefile whose lines are safe keeps the pool intact. -/
theorem Store.Intact.parseMakefile {s s' : Store} {f : MkFile} (hs : s.Intact) (hv : s.Valid)
    (hparse : parseMakefile env fuel f s = some s')
    (hsafe : ∀ r es, f.read env fuel = some (r, es) →
      Session.Always f.dir Session.NameSafe ⟨s, none⟩ es) : s'.Intact := by
  obtain ⟨r, es, hread, hclose⟩ := parseMakefile_eq_some.mp hparse
  have hrun := (hsafe r es hread).run (P := fun s => s.Valid ∧ s.store.Intact)
    ⟨Session.valid_of_store hv, hs⟩
    fun s e he h => ⟨h.1.act f.dir e, h.1.intact_act h.2 he⟩
  refine Store.intact_of_names fun k i hk => ?_
  rw [closeAll_find hclose] at hk
  rw [(closeAll_eq hclose).1]
  exact hrun.2.1 k i hk

/-- A makefile with a line that is not safe shares a module. -/
theorem shared_parseMakefile {s s' : Store} {f : MkFile}
    (hparse : Adepends.parseMakefile env fuel f s = some s')
    (hsafe : ¬ ∀ r es, f.read env fuel = some (r, es) →
      Session.Always f.dir Session.NameSafe ⟨s, none⟩ es) : s'.Shared := by
  obtain ⟨r, es, hread, hclose⟩ := parseMakefile_eq_some.mp hparse
  have hbad : ¬ Session.Always f.dir Session.NameSafe ⟨s, none⟩ es := by
    intro hgood
    refine hsafe fun r' es' hread' => ?_
    obtain ⟨rfl, rfl⟩ := Prod.mk.inj (Option.some.inj (hread.symm.trans hread'))
    exact hgood
  have hreg : (Session.mk s none).Registered := fun c k hc => by cases hc
  obtain ⟨k, k', i, hne, hk, hk'⟩ := hreg.shared_run hbad
  exact ⟨k, k', i, hne, (closeAll_find hclose k).trans hk, (closeAll_find hclose k').trans hk'⟩

/-- **The pool is intact exactly if every `LOCAL_MODULE` line was safe.** A safe line keeps
the pool intact. An unsafe one leaves two names that refer to one object, and no later line
takes a name away from its object, so they share it to the end. -/
theorem intact_iff {files : List MkFile} {s : Store}
    (h : parseDirectory env fuel files = some s) :
    s.Intact ↔ AlwaysFiles env fuel (fun _ => Session.NameSafe) Store.empty files := by
  have hempty : Store.empty.Intact := Store.intact_of_names fun k i hk => by cases hk
  -- from any intact pool, by induction on the makefiles
  have hgen : ∀ files s₀ s, s₀.Valid → s₀.Intact →
      files.foldlM (fun s f => parseMakefile env fuel f s) s₀ = some s →
      (s.Intact ↔ AlwaysFiles env fuel (fun _ => Session.NameSafe) s₀ files) := by
    intro files
    induction files with
    | nil =>
        intro s₀ s _ hi h
        obtain rfl : s₀ = s := Option.some.inj h
        exact iff_of_true hi trivial
    | cons f fs ih =>
        intro s₀ s hv hi h
        rw [List.foldlM_cons] at h
        obtain ⟨s₁, h₁, h₂⟩ := Option.bind_eq_some_iff.mp h
        by_cases hsafe : ∀ r es, f.read env fuel = some (r, es) →
            Session.Always f.dir Session.NameSafe ⟨s₀, none⟩ es
        · rw [ih s₁ s (hv.parseMakefile h₁) (hi.parseMakefile hv h₁ hsafe) h₂]
          constructor
          · intro hfs
            refine ⟨hsafe, fun s' hs' => ?_⟩
            obtain rfl := Option.some.inj (h₁.symm.trans hs')
            exact hfs
          · intro hfs
            exact hfs.2 s₁ h₁
        · refine iff_of_false ?_ fun hfs => hsafe hfs.1
          have hshared := foldlM_induction (P := fun s _ => s.Shared) h₂
            (shared_parseMakefile h₁ hsafe) fun _ _ _ _ hs hparse => hs.parseMakefile hparse
          exact hshared.not_intact
  exact hgen files _ s Store.valid_empty hempty h

end

/-- Two sections, each with a name of its own, and one of them redefined. -/
def threeSections : MkFile :=
  ⟨"p/Android.mk".toList, ["LOCAL_MODULE := a".toList, "include $(CLEAR_VARS)".toList,
    "LOCAL_MODULE := b".toList, "include $(CLEAR_VARS)".toList, "LOCAL_MODULE := a".toList]⟩

theorem intact_iff_threeSections :
    ∃ s, parseDirectory Env.bare 9 [threeSections] = some s ∧ s.Intact := by
  have hsome : (parseDirectory Env.bare 9 [threeSections]).isSome = true := by decide
  obtain ⟨s, hs⟩ := Option.isSome_iff_exists.mp hsome
  have hread : (threeSections.read Env.bare 9).map Prod.snd =
      some [.assign (.name "a".toList), .clear, .assign (.name "b".toList), .clear,
        .assign (.name "a".toList)] := by decide
  refine ⟨s, hs, (intact_iff hs).mpr ⟨fun r es h => ?_, fun _ _ => trivial⟩⟩
  obtain rfl : _ = es := Option.some.inj (hread.symm.trans (by rw [h]; rfl))
  -- every name is given to a section that has none yet
  refine ⟨.inr fun c hc => ?_, trivial, .inr fun c hc => ?_, trivial, .inr fun c hc => ?_, trivial⟩
  · cases hc
  · cases hc
  · cases hc

/-- Two names in one section: both entries are the same module. -/
theorem second_name_shares :
    ∃ s, parseDirectory Env.bare 9 [⟨"p/Android.mk".toList,
        ["LOCAL_MODULE := a".toList, "LOCAL_MODULE := b".toList]⟩] = some s ∧
      s.find "a".toList = some 0 ∧ s.find "b".toList = some 0 ∧
      (s.module 0).name = some "b".toList := by
  have h : (parseDirectory Env.bare 9 [⟨"p/Android.mk".toList,
      ["LOCAL_MODULE := a".toList, "LOCAL_MODULE := b".toList]⟩]).map
        (fun s => (s.find "a".toList, s.find "b".toList, (s.module 0).name)) =
      some (some 0, some 0, some "b".toList) := by decide
  obtain ⟨s, hs, hall⟩ := Option.map_eq_some_iff.mp h
  simp only [Prod.mk.injEq] at hall
  exact ⟨s, hs, hall⟩

/-! ### Sources -/

/-- A module with sources is in the directory of the makefile they come from. -/
def Module.Sourced (m : Module) : Prop :=
  ∀ v, m.src = some v → v ≠ [] → m.directory = m.srcFrom

/-- Every module of the pool is in the directory its sources come from. -/
def Store.Sourced (s : Store) : Prop := ∀ k i, s.find k = some i → (s.module i).Sourced

/-- A redefinition takes over sources only into a module of the same directory, and
sources are set only in a module of the directory of the makefile. -/
def Session.SrcSafe (dir : Str) (s : Session) : Event → Prop
  | .assign (.name n) =>
      ∀ c t v, s.current = some c → s.store.find n = some t → (s.store.module c).src = some v →
        v ≠ [] → (s.store.module t).directory = dir
  | .assign (.src v) =>
      v ≠ [] → ∀ c, s.current = some c → (s.store.module c).directory = dir
  | _ => True

/-- The invariant over the lines of a makefile in `dir`: it holds of every module, in the
pool or not, and the sources of the current one come from this makefile. -/
structure Session.SourcedIn (dir : Str) (s : Session) : Prop where
  valid : s.Valid
  modules : ∀ i, i < s.store.next → (s.store.module i).Sourced
  current : ∀ c v, s.current = some c → (s.store.module c).src = some v → v ≠ [] →
    (s.store.module c).srcFrom = dir

namespace Session.SourcedIn

variable {s : Session} {dir : Str}

/-- What holds once there is a current module: it is the one that was there, or a new one, which has
no sources yet. -/
theorem start (h : s.SourcedIn dir) :
    (∀ i, i < (s.start dir).1.next → ((s.start dir).1.module i).Sourced) ∧
      ∀ v, ((s.start dir).1.module (s.start dir).2).src = some v → v ≠ [] →
        ((s.start dir).1.module (s.start dir).2).srcFrom = dir := by
  rcases start_cases s dir with ⟨c, hc, hst⟩ | ⟨-, hst⟩
  · rw [hst]
    exact ⟨h.modules, fun v => h.current c v hc⟩
  · rw [hst]
    refine ⟨fun i hi => ?_, fun v hv => ?_⟩
    · by_cases e : i = s.store.next
      · intro v hv
        simp [Store.alloc, e] at hv
      · have hlt : i < s.store.next := by
          simp only [Store.alloc] at hi
          omega
        simpa [Store.alloc, Function.update_of_ne e] using h.modules i hlt
    · simp [Store.alloc] at hv

theorem directory_start (h : ∀ c, s.current = some c → (s.store.module c).directory = dir) :
    ((s.start dir).1.module (s.start dir).2).directory = dir := by
  rcases start_cases s dir with ⟨c, hc, hst⟩ | ⟨-, hst⟩
  · rw [hst]
    exact h c hc
  · rw [hst]
    simp [Store.alloc]

/-- A module that takes over sources is in the directory they come from. If the name is new it is
the current module itself; otherwise this is what a safe line requires. -/
theorem directory_define (h : s.SourcedIn dir) {n v : Str}
    (hsafe : s.SrcSafe dir (.assign (.name n)))
    (hv : ((s.start dir).1.module (s.start dir).2).src = some v) (hne : v ≠ []) :
    ((s.start dir).1.module ((s.start dir).1.define (s.start dir).2 n).2).directory = dir := by
  cases hn : (s.start dir).1.find n with
  | none =>
      have ht : ((s.start dir).1.define (s.start dir).2 n).2 = (s.start dir).2 := by
        simp [Store.define, hn]
      rw [ht, h.start.1 _ (h.valid.start dir).2 v hv hne]
      exact h.start.2 v hv hne
  | some t =>
      have ht : ((s.start dir).1.define (s.start dir).2 n).2 = t := by simp [Store.define, hn]
      rw [find_start] at hn
      rw [ht, module_start_of_lt (h.valid.store.pool_lt n t hn)]
      rcases start_cases s dir with ⟨c, hc, hst⟩ | ⟨-, hst⟩
      · rw [hst] at hv
        exact hsafe c t v hc hn hv hne
      · -- a new module has no sources to hand over
        rw [hst] at hv
        simp [Store.alloc] at hv

theorem act (h : s.SourcedIn dir) {e : Event} (hsafe : s.SrcSafe dir e) :
    (s.act dir e).SourcedIn dir := by
  obtain ⟨hmodules, hcurrent⟩ := h.start
  have hvalid := h.valid.act dir e
  cases e with
  | clear => exact ⟨hvalid, h.modules, fun c v hc => by cases hc⟩
  | assign e =>
      rw [act_assign] at hvalid ⊢
      cases e with
      | other => exact ⟨hvalid, hmodules, fun c v hc => Option.some.inj hc ▸ hcurrent v⟩
      | libs value => exact ⟨hvalid, hmodules, fun c v hc => Option.some.inj hc ▸ hcurrent v⟩
      | src value =>
          refine ⟨hvalid, fun i hi => ?_, fun c v hc hv hne => ?_⟩
          · by_cases e : i = (s.start dir).2
            · intro v hv hne
              obtain rfl : value = v := by simpa [Store.apply, Store.set, e] using hv
              simpa [Store.apply, Store.set, e] using directory_start (hsafe hne)
            · simpa [Store.apply, Store.set, Function.update_of_ne e] using hmodules i hi
          · obtain rfl := Option.some.inj hc
            simp [Store.apply, Store.set]
      | name n =>
          refine ⟨hvalid, fun i hi => ?_, fun c v hc hv hne => ?_⟩
          · rw [Store.apply] at hi ⊢
            rw [Store.next_define] at hi
            by_cases e : i = ((s.start dir).1.define (s.start dir).2 n).2
            · rw [e, Store.module_define_self]
              intro v hv hne
              exact (h.directory_define hsafe hv hne).trans (hcurrent v hv hne).symm
            · rw [Store.module_define_of_ne e]
              exact hmodules i hi
          · obtain rfl := Option.some.inj hc
            rw [Store.apply, Store.module_define_self] at hv ⊢
            exact hcurrent v hv hne

end Session.SourcedIn

/-- Every module there is, in the pool or not, is in the directory its sources come from. -/
def Store.AllSourced (s : Store) : Prop :=
  s.Valid ∧ ∀ i, i < s.next → (s.module i).Sourced

theorem Store.AllSourced.parseMakefile {env : Env} {fuel : Nat} {s s' : Store} {f : MkFile}
    (h : s.AllSourced) (hparse : parseMakefile env fuel f s = some s')
    (hsafe : ∀ r es, f.read env fuel = some (r, es) →
      Session.Always f.dir (Session.SrcSafe f.dir) ⟨s, none⟩ es) : s'.AllSourced := by
  obtain ⟨r, es, hread, hclose⟩ := parseMakefile_eq_some.mp hparse
  have hstart : Session.SourcedIn f.dir ⟨s, none⟩ :=
    ⟨Session.valid_of_store h.1, h.2, fun c v hc => by cases hc⟩
  have hrun := (hsafe r es hread).run hstart fun s e he hs => Session.SourcedIn.act hs he
  obtain ⟨hmodule, hnext, -⟩ := closeAll_eq hclose
  refine ⟨h.1.parseMakefile hparse, fun i hi => ?_⟩
  rw [hmodule]
  exact hrun.modules i (hnext ▸ hi)

/-- **If every redefinition and every source line is safe, the sources of each module come
from the makefiles of its directory.** The statement is kept for all objects, also for those
that no name refers to at the time, since a later name may take one over. -/
theorem sourced_of_safe {env : Env} {fuel : Nat} {files : List MkFile} {s : Store}
    (h : parseDirectory env fuel files = some s)
    (hsafe : AlwaysFiles env fuel Session.SrcSafe Store.empty files) : s.Sourced := by
  have hempty : Store.empty.AllSourced :=
    ⟨Store.valid_empty, fun i hi => absurd hi (Nat.not_lt_zero i)⟩
  have hend := foldlM_induction
    (P := fun s fs => s.AllSourced ∧ AlwaysFiles env fuel Session.SrcSafe s fs) h ⟨hempty, hsafe⟩
    fun s f fs s' hs hparse => ⟨hs.1.parseMakefile hparse hs.2.1, hs.2.2 s' hparse⟩
  exact fun k i hk => hend.1.2 i (hend.1.1.pool_lt k i hk)

/-- A module with sources, defined again in the same makefile. -/
def twiceDefined : MkFile :=
  ⟨"p/Android.mk".toList, ["LOCAL_MODULE := m".toList, "LOCAL_SRC_FILES := x.c".toList,
    "include $(CLEAR_VARS)".toList, "LOCAL_MODULE := m".toList, "LOCAL_SRC_FILES := y.c".toList]⟩

theorem sourced_of_safe_twiceDefined :
    ∃ s, parseDirectory Env.bare 9 [twiceDefined] = some s ∧ s.Sourced := by
  have hsome : (parseDirectory Env.bare 9 [twiceDefined]).isSome = true := by decide
  obtain ⟨s, hs⟩ := Option.isSome_iff_exists.mp hsome
  have hread : (twiceDefined.read Env.bare 9).map Prod.snd =
      some [.assign (.name "m".toList), .assign (.src "x.c".toList), .clear,
        .assign (.name "m".toList), .assign (.src "y.c".toList)] := by decide
  refine ⟨s, hs, sourced_of_safe hs ⟨fun r es h => ?_, fun _ _ => trivial⟩⟩
  obtain rfl : _ = es := Option.some.inj (hread.symm.trans (by rw [h]; rfl))
  refine ⟨fun c t v hc => ?_, fun _ c hc => ?_, trivial, fun c t v hc => ?_, fun _ c hc => ?_,
    trivial⟩
  · cases hc
  · cases hc
    rfl
  · cases hc
  · cases hc
    rfl

/-- Two makefiles define one module: the sources are those of the second, the directory
is that of the first. -/
theorem redefinition_keeps_directory :
    ∃ s, parseDirectory Env.bare 9
        [⟨"p/Android.mk".toList, ["LOCAL_MODULE := m".toList, "LOCAL_SRC_FILES := x.c".toList]⟩,
          ⟨"q/Android.mk".toList, ["LOCAL_MODULE := m".toList, "LOCAL_SRC_FILES := y.c".toList]⟩] =
        some s ∧ s.find "m".toList = some 0 ∧
      s.module 0 = ⟨some "m".toList, 1, some "y.c".toList, "q".toList, "p".toList⟩ := by
  have h : (parseDirectory Env.bare 9
      [⟨"p/Android.mk".toList, ["LOCAL_MODULE := m".toList, "LOCAL_SRC_FILES := x.c".toList]⟩,
        ⟨"q/Android.mk".toList, ["LOCAL_MODULE := m".toList, "LOCAL_SRC_FILES := y.c".toList]⟩]).map
        (fun s => (s.find "m".toList, s.module 0)) =
      some (some 0, ⟨some "m".toList, 1, some "y.c".toList, "q".toList, "p".toList⟩) := by
    decide
  obtain ⟨s, hs, hall⟩ := Option.map_eq_some_iff.mp h
  simp only [Prod.mk.injEq] at hall
  exact ⟨s, hs, hall⟩

end BlogStuff.Adepends
