import BlogStuff.Adepends.Variables

/-!
# BlogStuff.Adepends.Modules

`parse_makefile` and `parse_directory`. `Module` objects and their `depends` lists are
mutable and shared: one object can stand in the pool under several names, the pools of
successive makefiles hold the same objects, and a redefinition makes two modules refer
to one list. So both live in a `Store` under numbers, and a module names its list.

The body of the loop over the lines has two halves. The first reads the line with the
variables of this makefile (`Reader.read`) and does not look at any module; the second
carries out what the line does to the current module (`Session.act`). `parseLines_eq`
takes the loop apart accordingly: a makefile is a list of `Event`s, whatever modules
there are.

The lines are those of `TextFile`: without comments and blank lines, and joined where
they are continued.
-/

namespace BlogStuff.Adepends

open BlogStuff.Python BlogStuff.Make

/-! ### Reading lines -/

/-- What an assignment does besides setting its variable. -/
inductive Effect
  /-- The module gets its name: the evaluated value of `LOCAL_MODULE`. -/
  | name (n : Str)
  /-- The value of `LOCAL_SRC_FILES`. -/
  | src (value : Str)
  /-- The value of `LOCAL_STATIC_LIBRARIES` or `LOCAL_SHARED_LIBRARIES`. -/
  | libs (value : Str)
  | other
  deriving DecidableEq

/-- What a line does to the modules. -/
inductive Event
  /-- `include $(CLEAR_VARS)`. -/
  | clear
  | assign (effect : Effect)
  deriving DecidableEq

/-- The variables, and whether the line stands in a function definition. -/
structure Reader where
  pool : VariablePool
  inDefine : Bool

def isClear (line : Str) : Bool := line.map Char.toUpper == "INCLUDE $(CLEAR_VARS)".toList

def isDefine (line : Str) : Bool := startswith (line.map Char.toLower) "define ".toList

def isEndef (line : Str) : Bool := stripChars isBlank (line.map Char.toLower) == "endef".toList

/-- What an assignment does, once its variable is set. -/
def effect (env : Env) (fuel : Nat) (pool : VariablePool) (a : Assignment) : Option Effect :=
  if a.name = "LOCAL_MODULE".toList then (evalExpression env fuel pool a.text).map .name
  else if a.name = "LOCAL_SRC_FILES".toList then some (.src a.text)
  else if a.name = "LOCAL_STATIC_LIBRARIES".toList ∨ a.name = "LOCAL_SHARED_LIBRARIES".toList then
    some (.libs a.text)
  else some .other

/-- One line. The test for `include $(CLEAR_VARS)` comes first, so it works within
function definitions too. -/
def Reader.read (env : Env) (fuel : Nat) (r : Reader) (line : Str) :
    Option (Reader × List Event) :=
  let cleared := if isClear line then [Event.clear] else []
  let inDefine := if isEndef line then false else isDefine line || r.inDefine
  if inDefine then some (⟨r.pool, true⟩, cleared)
  else
    match assignment line with
    | none => some (⟨r.pool, false⟩, cleared)
    | some a =>
        (addVariable env fuel r.pool a).bind fun pool =>
          (effect env fuel pool a).map fun e => (⟨pool, false⟩, cleared ++ [.assign e])

/-! ### Modules -/

/-- A `Module` object. Its list of dependencies is an object of its own, because `LOCAL_MODULE`
makes two modules share one. -/
structure Module where
  name : Option Str
  /-- The number of the list object `depends` refers to. -/
  depends : Nat
  src : Option Str
  /-- The directory of the file whose `LOCAL_SRC_FILES` line set `src`. The program does
  not keep it; no definition reads it. -/
  srcFrom : Str
  directory : Str
  deriving DecidableEq

/-- The module and list objects, and the dictionary of the pool. -/
structure Store where
  module : Nat → Module
  list : Nat → List Str
  /-- The number of the next object. -/
  next : Nat
  pool : List (Str × Nat)

namespace Store

def empty : Store := ⟨fun _ => ⟨none, 0, none, [], []⟩, fun _ => [], 0, []⟩

/-- `find_module`. -/
def find (s : Store) (name : Str) : Option Nat := s.pool.lookup name

def set (s : Store) (i : Nat) (m : Module) : Store :=
  { s with module := Function.update s.module i m }

def setList (s : Store) (d : Nat) (l : List Str) : Store :=
  { s with list := Function.update s.list d l }

/-- A new `Module()` with a list of its own. -/
def alloc (s : Store) (directory : Str) : Store :=
  { s with
    module := Function.update s.module s.next ⟨none, s.next, none, [], directory⟩
    list := Function.update s.list s.next []
    next := s.next + 1 }

/-- `add_module`: a name that is taken stays with its module. -/
def addModule (s : Store) (name : Str) (i : Nat) : Store :=
  if (s.find name).isSome then s else { s with pool := s.pool ++ [(name, i)] }

/-- `LOCAL_MODULE`: a module of this name takes over the sources and the list of the
current one and becomes the current one. (If it is the current one already, taking over
changes nothing.) -/
def define (s : Store) (c : Nat) (name : Str) : Store × Nat :=
  let t := (s.find name).getD c
  let m := s.module c
  ((s.set t { s.module t with
      name := some name, src := m.src, srcFrom := m.srcFrom, depends := m.depends }).addModule
    name t, t)

/-- What an assignment does to the current module `c`; `dir` is the directory of the
makefile. -/
def apply (s : Store) (dir : Str) (c : Nat) : Effect → Store × Nat
  | .name n => s.define c n
  | .src v => (s.set c { s.module c with src := some v, srcFrom := dir }, c)
  | .libs v => (s.setList (s.module c).depends (s.list (s.module c).depends ++ words v), c)
  | .other => (s, c)

end Store

/-- The store and the current module. -/
structure Session where
  store : Store
  current : Option Nat

namespace Session

/-- The current module, a new one if there is none. -/
def start (s : Session) (dir : Str) : Store × Nat :=
  match s.current with
  | some c => (s.store, c)
  | none => (s.store.alloc dir, s.store.next)

/-- One event of a makefile in the directory `dir`. -/
def act (dir : Str) (s : Session) : Event → Session
  | .clear => ⟨s.store, none⟩
  | .assign e =>
      let (store, c) := s.start dir
      let (store, c) := store.apply dir c e
      ⟨store, some c⟩

/-- The events of a makefile, one after the other. -/
def run (dir : Str) (s : Session) (es : List Event) : Session := es.foldl (act dir) s

end Session

/-! ### `parse_makefile` -/

/-- A makefile: where it is, and its lines. -/
structure MkFile where
  path : Str
  lines : List Str

def MkFile.dir (f : MkFile) : Str := dirname f.path

/-- The state of the loop over the lines. -/
structure Parser where
  reader : Reader
  session : Session

/-- The body of the loop over the lines. -/
def Parser.step (env : Env) (fuel : Nat) (dir : Str) (p : Parser) (line : Str) : Option Parser :=
  (p.reader.read env fuel line).map fun (r, es) => ⟨r, p.session.run dir es⟩

/-- The closing loop over one `depends` list: `todo` is what stands at `index` and behind
it. The first word of a value takes its place, the others go to the end, where the loop
will meet them. -/
def closeList (env : Env) (fuel : Nat) (pool : VariablePool) :
    Nat → List Str → List Str → Option (List Str)
  | 0, _, _ => none
  | _ + 1, done, [] => some done
  | n + 1, done, value :: todo =>
      (evalExpression env fuel pool value).bind fun v =>
        match words v with
        | w :: ws => closeList env fuel pool n (done ++ [w]) (todo ++ ws)
        | [] => closeList env fuel pool n done todo

/-- The closing loop over the pool. -/
def closeAll (env : Env) (fuel : Nat) (pool : VariablePool) : List (Str × Nat) → Store → Option Store
  | [], s => some s
  | (_, i) :: items, s =>
      (closeList env fuel pool fuel [] (s.list (s.module i).depends)).bind fun l =>
        closeAll env fuel pool items (s.setList (s.module i).depends l)

/-- The loop over the lines, from the modules there are. -/
def parseLines (env : Env) (fuel : Nat) (f : MkFile) (s : Store) : Option Parser :=
  f.lines.foldlM (Parser.step env fuel f.dir) ⟨⟨⟨f.path, fun _ => none⟩, false⟩, ⟨s, none⟩⟩

/-- `parse_makefile`. -/
def parseMakefile (env : Env) (fuel : Nat) (f : MkFile) (s : Store) : Option Store :=
  (parseLines env fuel f s).bind fun p =>
    closeAll env fuel p.reader.pool (env.items p.session.store.pool) p.session.store

/-- `parse_directory` over the makefiles `find_android_mk` has found. -/
def parseDirectory (env : Env) (fuel : Nat) (files : List MkFile) : Option Store :=
  files.foldlM (fun s f => parseMakefile env fuel f s) Store.empty

/-! ### A makefile as a list of events -/

/-- Read some lines: the events, and what the reader is then. -/
def Reader.readAll (env : Env) (fuel : Nat) : Reader → List Str → Option (Reader × List Event)
  | r, [] => some (r, [])
  | r, line :: lines =>
      (r.read env fuel line).bind fun (r, es) =>
        (Reader.readAll env fuel r lines).map fun (r, es') => (r, es ++ es')

theorem Reader.of_readAll_cons {env : Env} {fuel : Nat} {r r' : Reader} {line : Str}
    {lines : List Str} {es : List Event} (h : r.readAll env fuel (line :: lines) = some (r', es)) :
    ∃ r₁ es₁ es₂, r.read env fuel line = some (r₁, es₁) ∧
      r₁.readAll env fuel lines = some (r', es₂) ∧ es = es₁ ++ es₂ := by
  obtain ⟨⟨r₁, es₁⟩, h₁, h⟩ := Option.bind_eq_some_iff.mp h
  obtain ⟨⟨r₂, es₂⟩, h₂, h⟩ := Option.map_eq_some_iff.mp h
  obtain ⟨rfl, rfl⟩ := Prod.mk.inj h
  exact ⟨r₁, es₁, es₂, h₁, h₂, rfl⟩

/-- Read a makefile. -/
def MkFile.read (env : Env) (fuel : Nat) (f : MkFile) : Option (Reader × List Event) :=
  Reader.readAll env fuel ⟨⟨f.path, fun _ => none⟩, false⟩ f.lines

theorem Session.run_append (dir : Str) (s : Session) (es es' : List Event) :
    s.run dir (es ++ es') = (s.run dir es).run dir es' := List.foldl_append

/-- **The loop reads the makefile and acts on its events.** Reading does not look at the modules, so
the two can be separated; everything later is about one or the other. -/
theorem parseLines_eq (env : Env) (fuel : Nat) (f : MkFile) (s : Store) :
    parseLines env fuel f s =
      (f.read env fuel).map fun (r, es) => ⟨r, Session.run f.dir ⟨s, none⟩ es⟩ := by
  have hloop : ∀ (lines : List Str) (r : Reader) (session : Session),
      lines.foldlM (Parser.step env fuel f.dir) ⟨r, session⟩ =
        (r.readAll env fuel lines).map fun (r, es) => ⟨r, session.run f.dir es⟩ := by
    intro lines
    induction lines with
    | nil => intro r session; rfl
    | cons line lines ih =>
        intro r session
        rw [List.foldlM_cons, Parser.step, Reader.readAll]
        cases r.read env fuel line with
        | none => rfl
        | some p =>
            obtain ⟨r', es⟩ := p
            simp only [Option.map_some, Option.bind_eq_bind, Option.bind_some, ih,
              Option.map_map]
            refine congrArg (fun g => Option.map g _) (funext fun q => ?_)
            simp only [Function.comp, Session.run_append]
  exact hloop _ _ _

/-- What `parse_makefile` does: read the makefile, act on its events, close the lists. -/
theorem parseMakefile_eq_some {env : Env} {fuel : Nat} {f : MkFile} {s s' : Store} :
    parseMakefile env fuel f s = some s' ↔
      ∃ r es, f.read env fuel = some (r, es) ∧
        closeAll env fuel r.pool (env.items (Session.run f.dir ⟨s, none⟩ es).store.pool)
          (Session.run f.dir ⟨s, none⟩ es).store = some s' := by
  rw [parseMakefile, parseLines_eq, Option.bind_eq_some_iff]
  constructor
  · intro h
    obtain ⟨p, hp, hclose⟩ := h
    obtain ⟨⟨r, es⟩, hread, rfl⟩ := Option.map_eq_some_iff.mp hp
    exact ⟨r, es, hread, hclose⟩
  · intro h
    obtain ⟨r, es, hread, hclose⟩ := h
    exact ⟨_, by rw [hread]; rfl, hclose⟩

theorem closeAll_eq {env : Env} {fuel : Nat} {pool : VariablePool} {items : List (Str × Nat)}
    {s s' : Store} (h : closeAll env fuel pool items s = some s') :
    s'.module = s.module ∧ s'.next = s.next ∧ s'.pool = s.pool := by
  induction items generalizing s with
  | nil =>
      obtain rfl : s = s' := Option.some.inj h
      exact ⟨rfl, rfl, rfl⟩
  | cons item items ih =>
      obtain ⟨l, -, hrest⟩ := Option.bind_eq_some_iff.mp h
      have hsame := ih hrest
      exact hsame

/-! ### Objects that exist -/

/-- Names stand for one module each, and the pool and the modules refer to objects that
exist. -/
structure Store.Valid (s : Store) : Prop where
  keys : (s.pool.map Prod.fst).Nodup
  pool_lt : ∀ k i, s.find k = some i → i < s.next
  depends_lt : ∀ i, i < s.next → (s.module i).depends < s.next

structure Session.Valid (s : Session) : Prop where
  store : s.store.Valid
  current_lt : ∀ c, s.current = some c → c < s.store.next

namespace Store

variable {s : Store}

theorem valid_empty : empty.Valid where
  keys := List.nodup_nil
  pool_lt _ _ h := by cases h
  depends_lt _ h := absurd h (Nat.not_lt_zero _)

/-- A name that was free is bound to the new module, every other name as before. A name that is
taken keeps its module: the first definition wins. -/
theorem find_addModule (s : Store) (n : Str) (i : Nat) (k : Str) :
    (s.addModule n i).find k = (s.find k).or (if k = n then some i else none) := by
  unfold addModule
  by_cases h : (s.find n).isSome = true
  · rw [if_pos h]
    by_cases hk : k = n
    · subst hk
      obtain ⟨j, hj⟩ := Option.isSome_iff_exists.mp h
      simp [hj]
    · simp [hk]
  · rw [if_neg h]
    by_cases hk : k = n
    · simp [find, List.lookup_append, hk]
    · have hne : (k == n) = false := by simpa using hk
      simp [find, List.lookup_append, List.lookup_cons, hk, hne]

theorem find_define (s : Store) (c : Nat) (n k : Str) :
    (s.define c n).1.find k = (s.find k).or (if k = n then some ((s.find n).getD c) else none) :=
  find_addModule _ _ _ _

@[simp] theorem module_addModule (s : Store) (n : Str) (i : Nat) :
    (s.addModule n i).module = s.module := by
  unfold addModule
  split_ifs <;> rfl

@[simp] theorem list_addModule (s : Store) (n : Str) (i : Nat) :
    (s.addModule n i).list = s.list := by
  unfold addModule
  split_ifs <;> rfl

@[simp] theorem next_addModule (s : Store) (n : Str) (i : Nat) :
    (s.addModule n i).next = s.next := by
  unfold addModule
  split_ifs <;> rfl

theorem find_define_self (s : Store) (c : Nat) (n : Str) :
    (s.define c n).1.find n = some (s.define c n).2 := by
  rw [find_define, if_pos rfl]
  cases hn : s.find n with
  | none => simp [define, hn]
  | some t => simp [define, hn]

theorem module_define_self (s : Store) (c : Nat) (n : Str) :
    (s.define c n).1.module (s.define c n).2 =
      { s.module (s.define c n).2 with
        name := some n, src := (s.module c).src, srcFrom := (s.module c).srcFrom,
        depends := (s.module c).depends } := by
  simp [define, set]

theorem module_define_of_ne {i c : Nat} {n : Str} (h : i ≠ (s.define c n).2) :
    (s.define c n).1.module i = s.module i := by
  simp only [define] at h
  simp [define, set, Function.update_of_ne h]

@[simp] theorem list_define (s : Store) (c : Nat) (n : Str) : (s.define c n).1.list = s.list := by
  simp [define, set]

@[simp] theorem next_define (s : Store) (c : Nat) (n : Str) : (s.define c n).1.next = s.next := by
  simp [define, set]

theorem find_apply {dir k : Str} {c i : Nat} {e : Effect} (h : s.find k = some i) :
    (s.apply dir c e).1.find k = some i := by
  cases e with
  | name n =>
      rw [apply, find_define, h]
      rfl
  | src v => exact h
  | libs v => exact h
  | other => exact h

/-- Only `LOCAL_MODULE` gives names. -/
theorem name_apply {dir : Str} {c : Nat} {e : Effect} (he : ∀ n, e ≠ .name n) (i : Nat) :
    ((s.apply dir c e).1.module i).name = (s.module i).name := by
  cases e with
  | name n => exact absurd rfl (he n)
  | src v =>
      by_cases h : i = c
      · simp [apply, set, h]
      · simp [apply, set, Function.update_of_ne h]
  | libs v => rfl
  | other => rfl

theorem current_apply {dir : Str} {c : Nat} {e : Effect} (he : ∀ n, e ≠ .name n) :
    (s.apply dir c e).2 = c := by
  cases e with
  | name n => exact absurd rfl (he n)
  | src v => rfl
  | libs v => rfl
  | other => rfl

theorem find_apply_of_ne {dir : Str} {c : Nat} {e : Effect} {k : Str} (he : e ≠ .name k) :
    (s.apply dir c e).1.find k = s.find k := by
  cases e with
  | name n =>
      have hne : k ≠ n := fun h => he (h ▸ rfl)
      simp [apply, find_define, hne]
  | src v => rfl
  | libs v => rfl
  | other => rfl

theorem next_apply (s : Store) (dir : Str) (c : Nat) (e : Effect) :
    (s.apply dir c e).1.next = s.next := by
  cases e with
  | name n => exact next_define s c n
  | src v => rfl
  | libs v => rfl
  | other => rfl

theorem depends_apply_src (s : Store) (dir : Str) (c : Nat) (v : Str) (i : Nat) :
    ((s.apply dir c (.src v)).1.module i).depends = (s.module i).depends := by
  by_cases e : i = c
  · simp [apply, set, e]
  · simp [apply, set, Function.update_of_ne e]

theorem Valid.alloc (h : s.Valid) (dir : Str) : (s.alloc dir).Valid where
  keys := h.keys
  pool_lt k i hk := Nat.lt_succ_of_lt (h.pool_lt k i hk)
  depends_lt i hi := by
    by_cases e : i = s.next
    · simp [Store.alloc, e]
    · have hlt : i < s.next := by
        simp only [Store.alloc] at hi
        omega
      have := h.depends_lt i hlt
      simp only [Store.alloc, Function.update_of_ne e]
      omega

theorem nodup_addModule (h : (s.pool.map Prod.fst).Nodup) (n : Str) (i : Nat) :
    ((s.addModule n i).pool.map Prod.fst).Nodup := by
  unfold addModule
  split_ifs with hn
  · exact h
  · -- the new key is not there yet
    have hnew : ∀ p ∈ s.pool, (n != p.1) = true := by
      rw [← List.lookup_eq_none_iff]
      exact Option.not_isSome_iff_eq_none.mp hn
    rw [List.map_append, List.map_singleton, List.nodup_append]
    refine ⟨h, List.nodup_singleton _, ?_⟩
    intro k hk k' hk' e
    obtain ⟨p, hp, rfl⟩ := List.mem_map.mp hk
    obtain rfl := List.mem_singleton.mp hk'
    exact bne_iff_ne.mp (hnew p hp) e.symm

theorem Valid.define (h : s.Valid) {c : Nat} (hc : c < s.next) (n : Str) :
    (s.define c n).1.Valid ∧ (s.define c n).2 < s.next := by
  have ht : (s.define c n).2 < s.next := by
    show (s.find n).getD c < s.next
    cases hn : s.find n with
    | none => exact hc
    | some t => exact h.pool_lt n t hn
  refine ⟨⟨?_, ?_, ?_⟩, ht⟩
  · exact nodup_addModule (s := s.set _ _) h.keys n _
  · intro k i hk
    rw [find_define, Option.or_eq_some_iff] at hk
    rw [next_define]
    rcases hk with hk | ⟨-, hk⟩
    · exact h.pool_lt k i hk
    · split_ifs at hk
      obtain rfl := Option.some.inj hk
      exact ht
  · intro i hi
    rw [next_define] at hi ⊢
    by_cases e : i = (s.define c n).2
    · rw [e, module_define_self]
      exact h.depends_lt c hc
    · rw [module_define_of_ne e]
      exact h.depends_lt i hi

theorem Valid.apply (h : s.Valid) {c : Nat} (hc : c < s.next) (dir : Str) (e : Effect) :
    (s.apply dir c e).1.Valid ∧ (s.apply dir c e).2 < s.next := by
  cases e with
  | name n => exact h.define hc n
  | src v =>
      refine ⟨⟨h.keys, h.pool_lt, fun i hi => ?_⟩, hc⟩
      rw [depends_apply_src]
      exact h.depends_lt i hi
  | libs v => exact ⟨⟨h.keys, h.pool_lt, h.depends_lt⟩, hc⟩
  | other => exact ⟨h, hc⟩

/-- A name is bound exactly if its pair is in the dictionary. -/
theorem Valid.mem_pool (h : s.Valid) {k : Str} {i : Nat} : (k, i) ∈ s.pool ↔ s.find k = some i := by
  constructor
  · intro hmem
    obtain ⟨a, b, hab⟩ := List.append_of_mem hmem
    refine List.lookup_eq_some_iff.mpr ⟨a, b, hab, fun p hp => ?_⟩
    have hnodup := h.keys
    rw [hab, List.map_append, List.nodup_append] at hnodup
    rw [bne_iff_ne]
    exact fun e => hnodup.2.2 _ (List.mem_map_of_mem hp) _ (List.mem_map_of_mem (.head _)) e.symm
  · intro hk
    obtain ⟨a, b, hab, -⟩ := List.lookup_eq_some_iff.mp hk
    simp [hab]

end Store

namespace Session

variable {s : Session}

theorem act_assign (s : Session) (dir : Str) (e : Effect) :
    s.act dir (.assign e) = ⟨((s.start dir).1.apply dir (s.start dir).2 e).1,
      some ((s.start dir).1.apply dir (s.start dir).2 e).2⟩ := rfl

theorem find_start (s : Session) (dir k : Str) : (s.start dir).1.find k = s.store.find k := by
  unfold start
  split <;> rfl

/-- The current module is the one there is, or a new one. -/
theorem start_cases (s : Session) (dir : Str) :
    (∃ c, s.current = some c ∧ s.start dir = (s.store, c)) ∨
      (s.current = none ∧ s.start dir = (s.store.alloc dir, s.store.next)) := by
  unfold start
  cases hc : s.current with
  | none => exact .inr ⟨rfl, rfl⟩
  | some c => exact .inl ⟨c, rfl, rfl⟩

theorem module_start_of_lt {dir : Str} {i : Nat} (hi : i < s.store.next) :
    (s.start dir).1.module i = s.store.module i := by
  rcases start_cases s dir with ⟨c, -, hstart⟩ | ⟨-, hstart⟩
  · rw [hstart]
  · rw [hstart]
    exact Function.update_of_ne (Nat.ne_of_lt hi) _ _

theorem Valid.start (h : s.Valid) (dir : Str) :
    (s.start dir).1.Valid ∧ (s.start dir).2 < (s.start dir).1.next := by
  unfold Session.start
  split
  · next c hc => exact ⟨h.store, h.current_lt c hc⟩
  · exact ⟨h.store.alloc dir, Nat.lt_succ_self _⟩

theorem Valid.act (h : s.Valid) (dir : Str) (e : Event) : (s.act dir e).Valid := by
  cases e with
  | clear => exact ⟨h.store, fun c hc => by cases hc⟩
  | assign e =>
      obtain ⟨hstore, hlt⟩ := h.start dir
      obtain ⟨hstore', hlt'⟩ := hstore.apply hlt dir e
      refine ⟨hstore', fun c hc => ?_⟩
      obtain rfl := Option.some.inj hc
      rw [← Store.next_apply _ dir (s.start dir).2 e] at hlt'
      exact hlt'

/-- An induction rule: what every event keeps holds after a run. -/
theorem run_induction {P : Session → Prop} {dir : Str} {es : List Event} (h : P s)
    (hstep : ∀ s e, e ∈ es → P s → P (s.act dir e)) : P (s.run dir es) := by
  induction es generalizing s with
  | nil => exact h
  | cons e es ih =>
      exact ih (hstep s e (.head _) h) fun s' e' he' => hstep s' e' (.tail _ he')

theorem Valid.run (h : s.Valid) (dir : Str) (es : List Event) : (s.run dir es).Valid :=
  run_induction h fun _ e _ hs => hs.act dir e

theorem find_act {dir k : Str} {i : Nat} {e : Event} (h : s.store.find k = some i) :
    (s.act dir e).store.find k = some i := by
  cases e with
  | clear => exact h
  | assign e => exact Store.find_apply ((find_start s dir k).trans h)

theorem valid_of_store {st : Store} (h : st.Valid) : (Session.mk st none).Valid :=
  ⟨h, fun c hc => by cases hc⟩

end Session

section

variable {env : Env} {fuel : Nat} {s s' : Store}

theorem closeAll_find {pool : VariablePool} {items : List (Str × Nat)}
    (h : closeAll env fuel pool items s = some s') (k : Str) : s'.find k = s.find k := by
  unfold Store.find
  rw [(closeAll_eq h).2.2]

theorem Store.Valid.closeAll {pool : VariablePool} {items : List (Str × Nat)} (hs : s.Valid)
    (h : closeAll env fuel pool items s = some s') : s'.Valid := by
  obtain ⟨hmodule, hnext, hpool⟩ := closeAll_eq h
  refine ⟨hpool ▸ hs.keys, fun k i hk => ?_, fun i hi => ?_⟩
  · rw [closeAll_find h] at hk
    exact hnext ▸ hs.pool_lt k i hk
  · rw [hnext] at hi ⊢
    exact hmodule ▸ hs.depends_lt i hi

/-- `parse_makefile` keeps the store in order. -/
theorem Store.Valid.parseMakefile {f : MkFile} (hs : s.Valid)
    (h : parseMakefile env fuel f s = some s') : s'.Valid := by
  obtain ⟨r, es, -, hclose⟩ := parseMakefile_eq_some.mp h
  exact ((Session.valid_of_store hs).run f.dir es).store.closeAll hclose

end

end BlogStuff.Adepends
