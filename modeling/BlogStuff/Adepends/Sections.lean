import BlogStuff.Adepends.Closing
import BlogStuff.Adepends.Integrity

/-!
# BlogStuff.Adepends.Sections

The sections of a makefile: the lines up to the first `include $(CLEAR_VARS)`, between two of
them, or behind the last. A section begins without a current module, so its first assignment
makes a new one, with a new list. Every name the section gives goes to a module that refers to
that list: a module that has the name already takes the list over and becomes the current one.

`Filling` is the invariant within the section. Behind it (`Kept`) a module keeps its list and
its sources until a later section names it again, by this name or by another one that it
stands under in the pool. So what a makefile leaves in a module is what the last section that
names it (`LastSection`) has put there.
-/

namespace BlogStuff.Adepends

open BlogStuff.Python BlogStuff.Make

variable {env : Env} {fuel : Nat}

/-! ### Reading a section -/

theorem Reader.readAll_append {r : Reader} {as bs : List Str} {p : Reader × List Event} :
    r.readAll env fuel (as ++ bs) = some p ↔
      ∃ r₁ es₁ r₂ es₂, r.readAll env fuel as = some (r₁, es₁) ∧
        r₁.readAll env fuel bs = some (r₂, es₂) ∧ p = (r₂, es₁ ++ es₂) := by
  induction as generalizing r p with
  | nil =>
      constructor
      · intro h
        exact ⟨r, [], p.1, p.2, rfl, h, rfl⟩
      · intro h
        obtain ⟨r₁, es₁, r₂, es₂, h₁, h₂, rfl⟩ := h
        obtain ⟨rfl, rfl⟩ := Prod.mk.inj (Option.some.inj h₁)
        exact h₂
  | cons line as ih =>
      rw [List.cons_append, Reader.readAll, Reader.readAll]
      cases r.read env fuel line with
      | none => simp
      | some q =>
          obtain ⟨r', es⟩ := q
          simp only [Option.bind_some, Option.map_eq_some_iff]
          constructor
          · intro h
            obtain ⟨⟨r₂, es'⟩, h, rfl⟩ := h
            obtain ⟨r₁, es₁, r₃, es₂, h₁, h₂, h₃⟩ := ih.mp h
            obtain ⟨rfl, rfl⟩ := Prod.mk.inj h₃
            exact ⟨r₁, es ++ es₁, r₂, es₂, ⟨(r₁, es₁), h₁, rfl⟩, h₂, by simp⟩
          · intro h
            obtain ⟨r₁, es₁, r₂, es₂, ⟨⟨r₃, es₃⟩, h₁, h₃⟩, h₂, rfl⟩ := h
            obtain ⟨rfl, rfl⟩ := Prod.mk.inj h₃
            exact ⟨(r₂, es₃ ++ es₂), ih.mpr ⟨_, _, _, _, h₁, h₂, rfl⟩, by simp⟩

/-- An assignment has an `=`. The pattern is followed to the operator, which is the character itself
or one of three before it. -/
theorem mem_of_assignment {line : Str} {a : Assignment} (h : assignment line = some a) :
    '=' ∈ line := by
  obtain ⟨p, hp, -⟩ := Option.map_eq_some_iff.mp h
  have hsome : (varAssignmentRx.matchAt line).isSome = true := by rw [hp]; rfl
  rw [Regex.matchAt, varAssignmentRx, Regex.run_seqs_cons, Regex.run, Regex.run] at hsome
  obtain ⟨c, b, rfl, -, hmany⟩ := Regex.run_chr_isSome.mp hsome
  obtain ⟨n, b, rfl, -, hblank⟩ := Regex.runMany_isSome.mp hmany
  beta_reduce at hblank
  rw [Regex.run_seqs_cons] at hblank
  obtain ⟨s, b, rfl, -, hop⟩ := Regex.runMany_isSome.mp hblank
  beta_reduce at hop
  rw [Regex.run_seqs_cons, Regex.run, Regex.opt, Regex.run, Option.isSome_or, Bool.or_eq_true] at hop
  rcases hop with hop | hop
  · obtain ⟨o, b, rfl, -, heq⟩ := Regex.run_chr_isSome.mp hop
    rw [Regex.run_seqs_cons] at heq
    obtain ⟨d, b, rfl, hd, -⟩ := Regex.run_chr_isSome.mp heq
    obtain rfl : d = '=' := beq_iff_eq.mp hd
    simp
  · rw [Regex.run, Regex.run_seqs_cons] at hop
    obtain ⟨d, b, rfl, hd, -⟩ := Regex.run_chr_isSome.mp hop
    obtain rfl : d = '=' := beq_iff_eq.mp hd
    simp

theorem assignment_of_isClear {line : Str} (h : isClear line = true) : assignment line = none := by
  by_contra hne
  obtain ⟨a, ha⟩ := Option.ne_none_iff_exists'.mp hne
  have hmem : '='.toUpper ∈ line.map Char.toUpper := List.mem_map_of_mem (mem_of_assignment ha)
  rw [beq_iff_eq.mp h] at hmem
  exact absurd hmem (by decide)

/-- What a line can do: nothing but clear, or carry out an assignment. A line that clears is not an
assignment, so no line does both. -/
theorem Reader.read_cases {r r' : Reader} {line : Str} {es : List Event}
    (h : r.read env fuel line = some (r', es)) :
    (es = (if isClear line then [Event.clear] else []) ∧ r'.pool = r.pool) ∨
      ∃ a e, assignment line = some a ∧ addVariable env fuel r.pool a = some r'.pool ∧
        effect env fuel r'.pool a = some e ∧ isClear line = false ∧ es = [.assign e] := by
  unfold Reader.read at h
  by_cases hd : (if isEndef line then false else isDefine line || r.inDefine) = true
  · simp only [hd, if_true] at h
    obtain ⟨rfl, rfl⟩ := Prod.mk.inj (Option.some.inj h)
    exact .inl ⟨rfl, rfl⟩
  · simp only [hd] at h
    cases ha : assignment line with
    | none =>
        rw [ha] at h
        obtain ⟨rfl, rfl⟩ := Prod.mk.inj (Option.some.inj h)
        exact .inl ⟨rfl, rfl⟩
    | some a =>
        have hclear : isClear line = false := by
          by_contra hc
          rw [assignment_of_isClear (by simpa using hc)] at ha
          cases ha
        rw [ha, hclear] at h
        obtain ⟨pool, hpool, h⟩ := Option.bind_eq_some_iff.mp h
        obtain ⟨e, he, h⟩ := Option.map_eq_some_iff.mp h
        obtain ⟨rfl, rfl⟩ := Prod.mk.inj h
        exact .inr ⟨a, e, rfl, hpool, he, hclear, rfl⟩

theorem Reader.read_of_isClear {r r' : Reader} {line : Str} {es : List Event}
    (h : r.read env fuel line = some (r', es)) (hc : isClear line = true) : es = [.clear] := by
  rcases Reader.read_cases h with ⟨rfl, -⟩ | ⟨a, e, -, -, -, hclear, -⟩
  · rw [if_pos hc]
  · rw [hc] at hclear
    cases hclear

/-- Lines without `include $(CLEAR_VARS)` clear nothing: a line is read either as a clearing one or
as an assignment, and the latter gives no such event. -/
theorem Reader.clear_not_mem {r r' : Reader} {lines : List Str} {es : List Event}
    (h : r.readAll env fuel lines = some (r', es)) (hc : ∀ l ∈ lines, isClear l = false) :
    Event.clear ∉ es := by
  induction lines generalizing r es with
  | nil =>
      obtain ⟨-, rfl⟩ := Prod.mk.inj (Option.some.inj h)
      exact List.not_mem_nil
  | cons line lines ih =>
      obtain ⟨r₁, es₁, es₂, h₁, h₂, rfl⟩ := Reader.of_readAll_cons h
      have hrest := ih h₂ fun l hl => hc l (.tail _ hl)
      rcases Reader.read_cases h₁ with ⟨rfl, -⟩ | ⟨a, e, -, -, -, -, rfl⟩
      · simpa [hc line (.head _)] using hrest
      · simpa using hrest

/-! ### Within the section -/

/-- The words of the library lines, as they are written. -/
def libWords (es : List Event) : List Str :=
  es.flatMap fun e =>
    match e with
    | .assign (.libs v) => words v
    | _ => []

/-- The names some events define. -/
def definedNames (es : List Event) : List Str :=
  es.filterMap fun e =>
    match e with
    | .assign (.name n) => some n
    | _ => none

theorem libWords_append (es es' : List Event) : libWords (es ++ es') = libWords es ++ libWords es' :=
  List.flatMap_append

theorem definedNames_append (es es' : List Event) :
    definedNames (es ++ es') = definedNames es ++ definedNames es' := List.filterMap_append

theorem mem_definedNames {es : List Event} {k : Str} :
    k ∈ definedNames es ↔ Event.assign (.name k) ∈ es := by
  rw [definedNames, List.mem_filterMap]
  constructor
  · intro h
    obtain ⟨e, he, hk⟩ := h
    split at hk
    · obtain rfl := Option.some.inj hk
      exact he
    · cases hk
  · intro h
    exact ⟨_, h, rfl⟩

/-- The current module `c` refers to the list `d`, which holds `ws`, and so does every module
the section has named. -/
structure Filling (names : List Str) (d : Nat) (ws : List Str) (s : Store) (c : Nat) : Prop where
  valid : s.Valid
  lt : c < s.next
  depends : (s.module c).depends = d
  list : s.list d = ws
  named : ∀ k ∈ names, ∃ t, s.find k = some t ∧ (s.module t).depends = d

namespace Filling

variable {names ws : List Str} {dir : Str} {d c : Nat} {s : Store}

theorem alloc (hv : s.Valid) (dir : Str) : Filling [] s.next [] (s.alloc dir) s.next where
  valid := hv.alloc dir
  lt := Nat.lt_succ_self _
  depends := by simp [Store.alloc]
  list := by simp [Store.alloc]
  named _ h := by cases h

/-- The module that has the name afterwards refers to the list of the current one, whether it
is new or takes the list over. -/
theorem define (h : Filling names d ws s c) (k : Str) :
    Filling (names ++ [k]) d ws (s.define c k).1 (s.define c k).2 := by
  obtain ⟨hvalid, hlt⟩ := h.valid.define h.lt k
  have hself : ((s.define c k).1.module (s.define c k).2).depends = d := by
    rw [Store.module_define_self]
    exact h.depends
  refine ⟨hvalid, by rwa [Store.next_define], hself, by rw [Store.list_define, h.list], ?_⟩
  intro k' hk'
  rcases List.mem_append.mp hk' with hk' | hk'
  · obtain ⟨t, ht, hd⟩ := h.named k' hk'
    have hfind : (s.apply [] c (.name k)).1.find k' = some t := Store.find_apply ht
    refine ⟨t, hfind, ?_⟩
    by_cases e : t = (s.define c k).2
    · rw [e, hself]
    · rw [Store.module_define_of_ne e, hd]
  · obtain rfl := List.mem_singleton.mp hk'
    exact ⟨_, Store.find_define_self s c k', hself⟩

theorem apply (h : Filling names d ws s c) (dir : Str) (e : Effect) :
    Filling (names ++ definedNames [.assign e]) d (ws ++ libWords [.assign e])
      (s.apply dir c e).1 (s.apply dir c e).2 := by
  cases e with
  | name k => simpa [libWords, definedNames, Store.apply] using h.define k
  | other => simpa [libWords, definedNames, Store.apply] using h
  | src v =>
      refine ⟨(h.valid.apply h.lt dir (.src v)).1, h.lt, ?_, ?_, fun k hk => ?_⟩
      · exact (s.depends_apply_src dir c v c).trans h.depends
      · simpa [libWords, Store.apply, Store.set] using h.list
      · obtain ⟨t, ht, hd⟩ := h.named k (by simpa [definedNames] using hk)
        exact ⟨t, ht, (s.depends_apply_src dir c v t).trans hd⟩
  | libs v =>
      refine ⟨(h.valid.apply h.lt dir (.libs v)).1, h.lt, h.depends, ?_, fun k hk => ?_⟩
      · simp [libWords, Store.apply, Store.setList, h.depends, h.list]
      · exact h.named k (by simpa [definedNames] using hk)

/-- The lines of the section fill the list. Each takes the step `Filling.apply` says, and nothing in
between takes the current module away. -/
theorem run {s : Session} (h : Filling names d ws (s.start dir).1 (s.start dir).2)
    {es : List Event} (hclear : Event.clear ∉ es) :
    Filling (names ++ definedNames es) d (ws ++ libWords es) ((s.run dir es).start dir).1
      ((s.run dir es).start dir).2 := by
  induction es generalizing s names ws with
  | nil => simpa [libWords, definedNames, Session.run] using h
  | cons e es ih =>
      cases e with
      | clear => simp at hclear
      | assign e =>
          have hstep : Filling (names ++ definedNames [.assign e]) d (ws ++ libWords [.assign e])
              ((s.act dir (.assign e)).start dir).1 ((s.act dir (.assign e)).start dir).2 :=
            h.apply dir e
          have hrest := ih hstep fun hmem => hclear (.tail _ hmem)
          rwa [List.append_assoc, List.append_assoc, ← definedNames_append, ← libWords_append,
            List.singleton_append] at hrest

end Filling

/-- The module the last `LOCAL_MODULE` line of a section names is the current one. By induction from
the end: other lines leave the names and the current module alone. -/
theorem Session.find_lastName (s : Session) (dir : Str) {es : List Event} {n : Str}
    (hclear : Event.clear ∉ es) (hn : (definedNames es).getLast? = some n) :
    ((s.run dir es).start dir).1.find n = some ((s.run dir es).start dir).2 := by
  induction es using List.reverseRecOn with
  | nil => cases hn
  | append_singleton es e ih =>
      have hes : Event.clear ∉ es := fun h => hclear (List.mem_append_left _ h)
      rw [definedNames_append] at hn
      rw [Session.run_append]
      cases e with
      | clear => simp at hclear
      | assign e =>
          show ((s.run dir es).act dir (.assign e)).store.find n = _
          by_cases he : ∃ k, e = .name k
          · obtain ⟨k, rfl⟩ := he
            obtain rfl : k = n := by simpa [definedNames] using hn
            exact Store.find_define_self _ _ _
          · have hne : ∀ k, e ≠ .name k := fun k hk => he ⟨k, hk⟩
            have hnone : definedNames [.assign e] = [] := by
              cases e with
              | name k => exact absurd rfl (hne k)
              | _ => rfl
            rw [hnone, List.append_nil] at hn
            exact (Store.find_apply_of_ne (hne n)).trans
              ((ih hes hn).trans (congrArg some (Store.current_apply hne).symm))

/-! ### Behind the section -/

/-- The module `t` stands in the pool under `n`, and under names of `keys` only. Its list `d`
holds `ws`, and neither is the current module's. -/
structure Kept (n : Str) (keys : Str → Prop) (t d : Nat) (ws : List Str) (s : Session) : Prop where
  valid : s.Valid
  find : s.store.find n = some t
  key : ∀ k, s.store.find k = some t → keys k
  depends : (s.store.module t).depends = d
  list : s.store.list d = ws
  away : ∀ c, s.current = some c → c ≠ t ∧ (s.store.module c).depends ≠ d

namespace Kept

variable {n dir : Str} {keys : Str → Prop} {t d : Nat} {ws : List Str} {s : Session}

theorem of_filling {names : List Str} {st : Store} {c : Nat} (h : Filling names d ws st c)
    (hn : st.find n = some t) (hd : (st.module t).depends = d) :
    Kept n (fun k => st.find k = st.find n) t d ws ⟨st, none⟩ where
  valid := Session.valid_of_store h.valid
  find := hn
  key _ hk := hk.trans hn.symm
  depends := hd
  list := h.list
  away c hc := by cases hc

theorem lt (h : Kept n keys t d ws s) : t < s.store.next := h.valid.store.pool_lt n t h.find

theorem depends_lt (h : Kept n keys t d ws s) : d < s.store.next :=
  h.depends ▸ h.valid.store.depends_lt t h.lt

/-- It still holds when a new section has begun: the module and the list of the new section are
numbers that nothing had before. -/
theorem start (h : Kept n keys t d ws s) (dir : Str) :
    Kept n keys t d ws ⟨(s.start dir).1, some (s.start dir).2⟩ := by
  have hvalid := h.valid.start dir
  rcases Session.start_cases s dir with ⟨c, hc, hst⟩ | ⟨-, hst⟩
  · obtain ⟨st, current⟩ := s
    obtain rfl : current = some c := hc
    exact h
  · rw [hst] at hvalid ⊢
    have hmod : (s.store.alloc dir).module t = s.store.module t :=
      Function.update_of_ne (Nat.ne_of_lt h.lt) _ _
    refine ⟨⟨hvalid.1, fun c hc => ?_⟩, h.find, h.key, ?_, ?_, ?_⟩
    · exact Option.some.inj hc ▸ hvalid.2
    · rw [hmod]
      exact h.depends
    · exact (Function.update_of_ne (Nat.ne_of_lt h.depends_lt) _ _).trans h.list
    · intro c hc
      obtain rfl := Option.some.inj hc
      have ht := h.lt
      have hd := h.depends_lt
      refine ⟨by omega, ?_⟩
      simp only [Store.alloc, Function.update_self]
      omega

theorem define_ne {st : Store} {c : Nat} (h : Kept n keys t d ws ⟨st, some c⟩) {k : Str}
    (hk : ¬ keys k) : (st.define c k).2 ≠ t := by
  cases hfind : st.find k with
  | none => simpa [Store.define, hfind] using (h.away c rfl).1
  | some t' =>
      have ht' : (st.define c k).2 = t' := by simp [Store.define, hfind]
      rw [ht']
      rintro rfl
      exact hk (h.key k hfind)

/-- Lines that do not name the module leave it and its list alone. The current module is another
one, with another list, and stays so when a line makes it take over a list. -/
theorem apply {st : Store} {c : Nat} (h : Kept n keys t d ws ⟨st, some c⟩) {e : Effect}
    (he : ∀ k, e = .name k → ¬ keys k) :
    Kept n keys t d ws ⟨(st.apply dir c e).1, some (st.apply dir c e).2⟩ := by
  obtain ⟨hct, hcd⟩ := h.away c rfl
  have hlt : c < st.next := h.valid.current_lt c rfl
  have hvalid := h.valid.store.apply hlt dir e
  have hsession : Session.Valid ⟨(st.apply dir c e).1, some (st.apply dir c e).2⟩ := by
    refine ⟨hvalid.1, fun c' hc' => ?_⟩
    obtain rfl := Option.some.inj hc'
    rw [Store.next_apply]
    exact hvalid.2
  cases e with
  | other => exact ⟨hsession, h.find, h.key, h.depends, h.list, h.away⟩
  | libs v =>
      refine ⟨hsession, h.find, h.key, h.depends, ?_, h.away⟩
      exact (Function.update_of_ne (Ne.symm hcd) _ _).trans h.list
  | src v =>
      refine ⟨hsession, h.find, h.key, (st.depends_apply_src dir c v t).trans h.depends, h.list,
        fun c' hc' => ?_⟩
      obtain rfl := Option.some.inj hc'
      rw [Store.depends_apply_src]
      exact ⟨hct, hcd⟩
  | name k =>
      -- the module that gets the name is not `t`, and takes over another list
      have hne := h.define_ne (he k rfl)
      refine ⟨hsession, Store.find_apply h.find, fun k' hk' => ?_, ?_, ?_, fun c' hc' => ?_⟩
      · rw [Store.apply, Store.find_define, Option.or_eq_some_iff] at hk'
        rcases hk' with hk' | ⟨-, hk'⟩
        · exact h.key k' hk'
        · split_ifs at hk'
          exact absurd (Option.some.inj hk') hne
      · exact (congrArg Module.depends (Store.module_define_of_ne (Ne.symm hne))).trans h.depends
      · exact (congrFun (Store.list_define st c k) d).trans h.list
      · obtain rfl := Option.some.inj hc'
        refine ⟨hne, ?_⟩
        rw [Store.apply, Store.module_define_self]
        exact hcd

theorem act (h : Kept n keys t d ws s) {e : Event} (he : ∀ k, e = .assign (.name k) → ¬ keys k) :
    Kept n keys t d ws (s.act dir e) := by
  cases e with
  | clear =>
      exact ⟨Session.valid_of_store h.valid.store, h.find, h.key, h.depends, h.list,
        fun c hc => by cases hc⟩
  | assign e => exact (h.start dir).apply fun k hk => he k (hk ▸ rfl)

theorem run (h : Kept n keys t d ws s) (dir : Str) {es : List Event}
    (hes : ∀ k ∈ definedNames es, ¬ keys k) : Kept n keys t d ws (s.run dir es) :=
  Session.run_induction h fun _ _ hmem hs =>
    hs.act fun k hk => hes k (mem_definedNames.mpr (hk ▸ hmem))

/-- The loop at the end closes the list, once for each entry of the pool that refers to it; the
first time counts if it leaves settled words. -/
theorem closeAll {pool : VariablePool} {items : List (Str × Nat)} {s' : Store}
    (h : Kept n keys t d ws s) (hitems : items.Perm s.store.pool)
    (hclose : closeAll env fuel pool items s.store = some s') :
    ∃ us, Settles env fuel pool ws us ∧ ((∀ u ∈ us, Settled u) → (s'.list d).Perm us) := by
  have hmem : (n, t) ∈ items := hitems.mem_iff.mpr (h.valid.store.mem_pool.mpr h.find)
  have hlist := closeAll_settles hclose ⟨_, hmem, h.depends⟩
  rwa [h.list] at hlist

end Kept

/-! ### The section of a module -/

/-- A section of a makefile that names the module `n`, with what is read before it, in it and
behind it. -/
structure ModuleSection (env : Env) (fuel : Nat) (f : MkFile) (n : Str) where
  before : List Str
  lines : List Str
  behind : List Str
  file_eq : f.lines = before ++ (lines ++ behind)
  before_clear : ∀ l, before.getLast? = some l → isClear l = true
  lines_open : ∀ l ∈ lines, isClear l = false
  behind_clear : ∀ l, behind.head? = some l → isClear l = true
  start : Reader
  stop : Reader
  last : Reader
  beforeEvents : List Event
  events : List Event
  behindEvents : List Event
  read_before : Reader.readAll env fuel ⟨⟨f.path, fun _ => none⟩, false⟩ before =
    some (start, beforeEvents)
  read_lines : start.readAll env fuel lines = some (stop, events)
  read_behind : stop.readAll env fuel behind = some (last, behindEvents)
  named : n ∈ definedNames events

/-- The modules where the section ends. -/
def ModuleSection.store {f : MkFile} {n : Str} (m : ModuleSection env fuel f n) (s : Store) :
    Store :=
  (Session.run f.dir ⟨s, none⟩ (m.beforeEvents ++ m.events)).store

/-- The last section that names the module: no later one gives its name, or another name that
the same `Module` object stands under by then. (An object has two names only if a section of
this makefile, or of one before it, has two `LOCAL_MODULE` lines that differ.) -/
structure LastSection (env : Env) (fuel : Nat) (f : MkFile) (s : Store) (n : Str) extends
    ModuleSection env fuel f n where
  not_again : ∀ k ∈ definedNames behindEvents,
    (toModuleSection.store s).find k ≠ (toModuleSection.store s).find n

theorem ModuleSection.read_eq {f : MkFile} {n : Str} (m : ModuleSection env fuel f n) :
    f.read env fuel = some (m.last, m.beforeEvents ++ (m.events ++ m.behindEvents)) := by
  rw [MkFile.read, m.file_eq]
  exact Reader.readAll_append.mpr ⟨_, _, _, _, m.read_before,
    Reader.readAll_append.mpr ⟨_, _, _, _, m.read_lines, m.read_behind, rfl⟩, rfl⟩

/-- A section begins without a current module: it is at the beginning of the file, or behind a line
that clears. -/
theorem ModuleSection.current_before {f : MkFile} {n : Str} (m : ModuleSection env fuel f n)
    (s : Store) : (Session.run f.dir ⟨s, none⟩ m.beforeEvents).current = none := by
  have hread := m.read_before
  rcases List.eq_nil_or_concat' m.before with hnil | ⟨before, cut, hcut⟩
  · rw [hnil] at hread
    obtain ⟨-, hevents⟩ := Prod.mk.inj (Option.some.inj hread)
    rw [← hevents]
    rfl
  · rw [hcut] at hread
    have hclear : isClear cut = true := m.before_clear cut (by rw [hcut]; simp)
    obtain ⟨r₁, es₁, r₂, es₂, -, hlast, hevents⟩ := Reader.readAll_append.mp hread
    obtain ⟨⟨r₃, es₃⟩, hline, hlast⟩ := Option.bind_eq_some_iff.mp hlast
    obtain ⟨-, rfl⟩ := Prod.mk.inj (Option.some.inj hlast)
    obtain rfl := Reader.read_of_isClear hline hclear
    rw [(Prod.mk.inj hevents).2, Session.run_append]
    rfl

theorem Session.current_run (s : Session) (dir : Str) {es : List Event}
    (hclear : Event.clear ∉ es) (hne : es ≠ []) : ∃ c, (s.run dir es).current = some c := by
  rcases List.eq_nil_or_concat' es with rfl | ⟨es, e, rfl⟩
  · exact absurd rfl hne
  · cases e with
    | clear => simp at hclear
    | assign e =>
        rw [Session.run_append]
        exact ⟨_, rfl⟩

/-- What follows a section does not depend on its current module: there is nothing more, or the
first line of it clears. -/
theorem ModuleSection.run_behind {f : MkFile} {n : Str} (m : ModuleSection env fuel f n)
    (s : Session) : (s.run f.dir m.behindEvents).store =
      (Session.run f.dir ⟨s.store, none⟩ m.behindEvents).store := by
  cases hb : m.behind with
  | nil =>
      have hread := m.read_behind
      rw [hb] at hread
      obtain ⟨-, hevents⟩ := Prod.mk.inj (Option.some.inj hread)
      rw [← hevents]
      rfl
  | cons l ls =>
      have hread := m.read_behind
      rw [hb] at hread
      obtain ⟨⟨r₁, es₁⟩, h₁, hread⟩ := Option.bind_eq_some_iff.mp hread
      obtain ⟨⟨r₂, es₂⟩, -, hread⟩ := Option.map_eq_some_iff.mp hread
      obtain rfl := Reader.read_of_isClear h₁ (m.behind_clear l (by rw [hb]; rfl))
      rw [← (Prod.mk.inj hread).2]
      rfl

/-- What the whole makefile leaves, from where the section ends. -/
theorem ModuleSection.run_eq {f : MkFile} {n : Str} (m : ModuleSection env fuel f n) (s : Store) :
    (Session.run f.dir ⟨s, none⟩ (m.beforeEvents ++ (m.events ++ m.behindEvents))).store =
      (Session.run f.dir ⟨m.store s, none⟩ m.behindEvents).store := by
  rw [← List.append_assoc, Session.run_append f.dir _ (m.beforeEvents ++ m.events)]
  exact m.run_behind _

/-- Where the section ends, there is a current module, and its list is that of the section. The
module is the one allocated at the first assignment, so its list starts empty. -/
theorem ModuleSection.filled {f : MkFile} {n : Str} (m : ModuleSection env fuel f n) {s : Store}
    (hv : s.Valid) : ∃ c d,
      (Session.run f.dir ⟨s, none⟩ (m.beforeEvents ++ m.events)).current = some c ∧
      Filling (definedNames m.events) d (libWords m.events) (m.store s) c := by
  let before := Session.run f.dir ⟨s, none⟩ m.beforeEvents
  have hvalid : before.Valid := (Session.valid_of_store hv).run f.dir m.beforeEvents
  have hstart : before.start f.dir = (before.store.alloc f.dir, before.store.next) := by
    rw [Session.start, m.current_before]
  have hfill : Filling [] before.store.next [] (before.start f.dir).1 (before.start f.dir).2 := by
    rw [hstart]
    exact .alloc hvalid.store f.dir
  have hclear := Reader.clear_not_mem m.read_lines m.lines_open
  have hne : m.events ≠ [] := List.ne_nil_of_mem (mem_definedNames.mp m.named)
  obtain ⟨c, hc⟩ := Session.current_run before f.dir hclear hne
  have hfilled := hfill.run hclear
  rw [Session.start, hc, List.nil_append, List.nil_append] at hfilled
  rw [ModuleSection.store, Session.run_append]
  exact ⟨c, before.store.next, hc, hfilled⟩

/-- At the end of the makefile the module refers to the list of its last section. -/
theorem LastSection.kept {f : MkFile} {s : Store} {n : Str} (m : LastSection env fuel f s n)
    (hv : s.Valid) : ∃ t d, (m.store s).find n = some t ∧
      Kept n (fun k => (m.store s).find k = (m.store s).find n) t d (libWords m.events)
        ⟨m.store s, none⟩ := by
  obtain ⟨c, d, -, hfilled⟩ := m.filled hv
  obtain ⟨t, ht, hd⟩ := hfilled.named n m.named
  exact ⟨t, d, ht, .of_filling hfilled ht hd⟩

end BlogStuff.Adepends
