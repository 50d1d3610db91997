import BlogStuff.Adepends.Sections

/-!
# BlogStuff.Adepends.SrcFiles

What `parse_makefile` records as the `src` of a module. A `LOCAL_SRC_FILES` line goes two ways:
`add_variable` sets or extends the variable, and the module gets the right-hand side of the line,
as it is written, in place of what it had. So the variable has the words of all lines of a
section (`words_srcLines`), and the module those of the last line (`src_run`).

A later section that names the module again replaces its sources, also by none. What counts in the
end is the last `LOCAL_SRC_FILES` line of the last section that names the module.
-/

namespace BlogStuff.Adepends

open BlogStuff.Python BlogStuff.Make

variable {env : Env} {fuel : Nat}

/-! ### The module -/

/-- The right-hand sides of the `LOCAL_SRC_FILES` lines. -/
def srcTexts (es : List Event) : List Str :=
  es.filterMap fun e =>
    match e with
    | .assign (.src v) => some v
    | _ => none

theorem Store.src_apply (s : Store) (dir : Str) (c : Nat) (e : Effect) :
    ((s.apply dir c e).1.module (s.apply dir c e).2).src =
      ((srcTexts [.assign e]).getLast?).or (s.module c).src := by
  cases e with
  | name n => rw [Store.apply, Store.module_define_self]; rfl
  | src v => simp [Store.apply, Store.set, srcTexts]
  | libs v => rfl
  | other => rfl

/-- **Within a section every line replaces the sources.** The induction takes the last line off:
either it sets the sources, and nothing before it counts, or it leaves them. -/
theorem Session.src_run (s : Session) (dir : Str) {es : List Event} (hclear : Event.clear ∉ es) :
    (((s.run dir es).start dir).1.module ((s.run dir es).start dir).2).src =
      ((srcTexts es).getLast?).or ((s.start dir).1.module (s.start dir).2).src := by
  induction es using List.reverseRecOn with
  | nil => rfl
  | append_singleton es e ih =>
      have hes : Event.clear ∉ es := fun h => hclear (List.mem_append_left _ h)
      cases e with
      | clear => simp at hclear
      | assign e =>
          have htexts : srcTexts (es ++ [.assign e]) = srcTexts es ++ srcTexts [.assign e] :=
            List.filterMap_append
          rw [Session.run_append, htexts, List.getLast?_append, Option.or_assoc, ← ih hes]
          exact Store.src_apply _ dir _ e

namespace Kept

variable {n dir : Str} {keys : Str → Prop} {t d : Nat} {ws : List Str} {s : Session}

/-- Lines that do not name the module leave its sources alone: sources are set for the current
module, which it is not, and a name gives sources only to the module it belongs to. -/
theorem src_act (h : Kept n keys t d ws s) {e : Event}
    (he : ∀ k, e = .assign (.name k) → ¬ keys k) :
    ((s.act dir e).store.module t).src = (s.store.module t).src := by
  cases e with
  | clear => rfl
  | assign e =>
      have hstart := h.start dir
      have hmod : ((s.start dir).1.module t) = s.store.module t := Session.module_start_of_lt h.lt
      rw [Session.act_assign, ← hmod]
      cases e with
      | other => rfl
      | libs v => rfl
      | src v =>
          have hne : t ≠ (s.start dir).2 := Ne.symm (hstart.away _ rfl).1
          simp [Store.apply, Store.set, Function.update_of_ne hne]
      | name k =>
          have hne := hstart.define_ne (he k rfl)
          rw [Store.apply, Store.module_define_of_ne (Ne.symm hne)]

theorem src_run (h : Kept n keys t d ws s) (dir : Str) {es : List Event}
    (hes : ∀ k ∈ definedNames es, ¬ keys k) :
    ((s.run dir es).store.module t).src = (s.store.module t).src := by
  induction es generalizing s with
  | nil => rfl
  | cons e es ih =>
      have he : ∀ k, e = .assign (.name k) → ¬ keys k := fun k hk =>
        hes k (mem_definedNames.mpr (hk ▸ .head _))
      refine (ih (h.act he) fun k hk => hes k ?_).trans (h.src_act he)
      exact mem_definedNames.mpr (.tail _ (mem_definedNames.mp hk))

end Kept

/-- **At the end of the makefile the module has the last line of its last section**, if it is the
module the section ends with. (With two names a section can have two modules; the first one then
has the sources of the lines before the second name.) -/
theorem LastSection.src {f : MkFile} {s s' : Store} {n : Str} (m : LastSection env fuel f s n)
    (hn : (definedNames m.events).getLast? = some n) (hv : s.Valid)
    (hparse : parseMakefile env fuel f s = some s') :
    ∃ i, s'.find n = some i ∧ (s'.module i).src = (srcTexts m.events).getLast? := by
  obtain ⟨r, es, hread, hclose⟩ := parseMakefile_eq_some.mp hparse
  obtain ⟨rfl, rfl⟩ := Prod.mk.inj (Option.some.inj (hread.symm.trans m.read_eq))
  obtain ⟨t, d, ht, hkept⟩ := m.kept hv
  have hclear := Reader.clear_not_mem m.read_lines m.lines_open
  obtain ⟨c, -, hcurrent, -⟩ := m.filled hv
  -- the module is the current one, and the section begins with a new one, without sources
  have hsrc : ((m.store s).module t).src = (srcTexts m.events).getLast? := by
    have hname := Session.find_lastName (Session.run f.dir ⟨s, none⟩ m.beforeEvents) f.dir hclear hn
    have hwithin := Session.src_run (Session.run f.dir ⟨s, none⟩ m.beforeEvents) f.dir hclear
    have hnew : ((Session.run f.dir ⟨s, none⟩ m.beforeEvents).start f.dir) =
        ((Session.run f.dir ⟨s, none⟩ m.beforeEvents).store.alloc f.dir,
          (Session.run f.dir ⟨s, none⟩ m.beforeEvents).store.next) := by
      rw [Session.start, m.current_before]
    rw [← Session.run_append, Session.start, hcurrent] at hname hwithin
    obtain rfl : t = c := Option.some.inj (ht.symm.trans hname)
    rw [hnew] at hwithin
    simpa [ModuleSection.store, Store.alloc] using hwithin
  rw [m.run_eq] at hclose
  refine ⟨t, (closeAll_find hclose n).trans (hkept.run f.dir m.not_again).find, ?_⟩
  rw [(closeAll_eq hclose).1, hkept.src_run f.dir m.not_again, hsrc]

/-! ### The variable -/

/-- The variable of the sources. -/
def srcName : Str := "LOCAL_SRC_FILES".toList

/-- The `LOCAL_SRC_FILES` lines among some lines, each with the variables in front of it, which are
those its text is evaluated with. -/
def Reader.srcLines (env : Env) (fuel : Nat) : Reader → List Str → List (Assignment × VariablePool)
  | _, [] => []
  | r, line :: lines =>
      match r.read env fuel line with
      | none => []
      | some (r', es) =>
          match es, assignment line with
          | [.assign (.src _)], some a => (a, r.pool) :: Reader.srcLines env fuel r' lines
          | _, _ => Reader.srcLines env fuel r' lines

/-- The right-hand sides, evaluated where they stand. -/
def evaluated (env : Env) (fuel : Nat) (as : List (Assignment × VariablePool)) :
    Option (List Str) :=
  as.mapM fun p => evalExpression env fuel p.2 p.1.text

theorem evaluated_cons {a : Assignment} {pool : VariablePool} {v : Str} {us : List Str}
    {as : List (Assignment × VariablePool)} (hv : evalExpression env fuel pool a.text = some v)
    (hus : evaluated env fuel as = some us) :
    evaluated env fuel ((a, pool) :: as) = some (v :: us) := by
  rw [evaluated] at hus ⊢
  rw [List.mapM_cons, hv, hus]
  rfl

theorem effect_eq_src {pool : VariablePool} {a : Assignment} {v : Str}
    (h : effect env fuel pool a = some (.src v)) : a.name = srcName ∧ a.text = v := by
  unfold effect at h
  split_ifs at h with h1 h2
  · obtain ⟨u, -, hu⟩ := Option.map_eq_some_iff.mp h
    cases hu
  · exact ⟨h2, Effect.src.inj (Option.some.inj h)⟩
  · cases h
  · cases h

theorem effect_ne_src {pool : VariablePool} {a : Assignment} {e : Effect}
    (h : effect env fuel pool a = some e) (he : ∀ v, e ≠ .src v) : a.name ≠ srcName := by
  intro hname
  have hmodule : a.name ≠ "LOCAL_MODULE".toList := by
    rw [hname]
    decide
  unfold effect at h
  rw [if_neg hmodule, if_pos (show a.name = "LOCAL_SRC_FILES".toList from hname)] at h
  exact he a.text (Option.some.inj h).symm

/-- **A line is a `LOCAL_SRC_FILES` line, or leaves the variable alone.** The event of a line and
the variable it sets are decided by the same name. -/
theorem Reader.srcLines_cons {r r' : Reader} {line : Str} {es : List Event}
    (h : r.read env fuel line = some (r', es)) (lines : List Str) :
    (∃ a, a.name = srcName ∧ es = [.assign (.src a.text)] ∧
        addVariable env fuel r.pool a = some r'.pool ∧
        r.srcLines env fuel (line :: lines) = (a, r.pool) :: r'.srcLines env fuel lines) ∨
      srcTexts es = [] ∧ r'.pool.vars srcName = r.pool.vars srcName ∧
        r.srcLines env fuel (line :: lines) = r'.srcLines env fuel lines := by
  rw [Reader.srcLines, h]
  rcases Reader.read_cases h with ⟨rfl, hpool⟩ | ⟨a, e, ha, hadd, he, -, rfl⟩
  · refine .inr ⟨?_, by rw [hpool], ?_⟩
    · split_ifs <;> rfl
    · split_ifs <;> rfl
  · cases e with
    | src v =>
        obtain ⟨hname, rfl⟩ := effect_eq_src he
        exact .inl ⟨a, hname, rfl, hadd, by rw [ha]⟩
    | name n =>
        exact .inr ⟨rfl, vars_addVariable hadd (Ne.symm (effect_ne_src he (by simp))), rfl⟩
    | libs v =>
        exact .inr ⟨rfl, vars_addVariable hadd (Ne.symm (effect_ne_src he (by simp))), rfl⟩
    | other =>
        exact .inr ⟨rfl, vars_addVariable hadd (Ne.symm (effect_ne_src he (by simp))), rfl⟩

/-- The lines are those the events come from, one for each event that sets the sources and in the
same order. -/
theorem text_srcLines {r r' : Reader} {lines : List Str} {es : List Event}
    (h : r.readAll env fuel lines = some (r', es)) :
    (r.srcLines env fuel lines).map (fun p => p.1.text) = srcTexts es := by
  induction lines generalizing r es with
  | nil =>
      obtain ⟨-, rfl⟩ := Prod.mk.inj (Option.some.inj h)
      rfl
  | cons line lines ih =>
      obtain ⟨r₁, es₁, es₂, h₁, h₂, rfl⟩ := Reader.of_readAll_cons h
      have happend : srcTexts (es₁ ++ es₂) = srcTexts es₁ ++ srcTexts es₂ := List.filterMap_append
      rw [happend]
      rcases Reader.srcLines_cons h₁ lines with ⟨a, -, rfl, -, hlines⟩ | ⟨hnil, -, hlines⟩
      · rw [hlines, List.map_cons, ih h₂]
        rfl
      · rw [hlines, ih h₂, hnil]
        rfl

/-- Lines that extend the variable add their words to it. By induction on the lines; `+=` puts a
space between the old value and the new text, so no two words are joined. -/
theorem words_append_srcLines {r r' : Reader} {lines : List Str} {es : List Event} {old : Str}
    (h : r.readAll env fuel lines = some (r', es))
    (happend : ∀ p ∈ r.srcLines env fuel lines, p.1.op = .append)
    (hold : r.pool.vars srcName = some old) :
    ∃ value us, r'.pool.vars srcName = some value ∧
      evaluated env fuel (r.srcLines env fuel lines) = some us ∧
      words value = words old ++ us.flatMap words := by
  induction lines generalizing r es old with
  | nil =>
      obtain ⟨rfl, -⟩ := Prod.mk.inj (Option.some.inj h)
      exact ⟨old, [], hold, rfl, by simp⟩
  | cons line lines ih =>
      obtain ⟨r₁, es₁, es₂, h₁, h₂, rfl⟩ := Reader.of_readAll_cons h
      rcases Reader.srcLines_cons h₁ lines with ⟨a, hname, -, hadd, hlines⟩ | ⟨-, hvars, hlines⟩
      · rw [hlines] at happend ⊢
        have hop : a.op = .append := happend _ (.head _)
        simp only [addVariable, hop, hname, hold] at hadd
        obtain ⟨v, hv, hpool⟩ := Option.map_eq_some_iff.mp hadd
        have hnew : r₁.pool.vars srcName = some (old ++ ' ' :: v) := by
          rw [← hpool]
          simp [VariablePool.set]
        obtain ⟨value, us, hvalue, hus, hwords⟩ := ih h₂ (fun p hp => happend p (.tail _ hp)) hnew
        refine ⟨value, v :: us, hvalue, evaluated_cons hv hus, ?_⟩
        rw [hwords, words_append_cons (by decide), List.flatMap_cons, List.append_assoc]
      · rw [hlines] at happend ⊢
        exact ih h₂ happend (hvars.trans hold)

/-- The section sets the variable with `:=` and then extends it with `+=`. -/
def SetThenExtended (as : List (Assignment × VariablePool)) : Prop :=
  ∃ p rest, as = p :: rest ∧ p.1.op = .immediate ∧ ∀ q ∈ rest, q.1.op = .append

/-- **The variable has the words of all lines.** `:=` and `=` start anew, `+=` adds its words
behind a blank, and splitting at blanks does not see where the lines ended. -/
theorem words_srcLines {r r' : Reader} {lines : List Str} {es : List Event}
    (h : r.readAll env fuel lines = some (r', es))
    (hset : SetThenExtended (r.srcLines env fuel lines)) :
    ∃ value us, r'.pool.vars srcName = some value ∧
      evaluated env fuel (r.srcLines env fuel lines) = some us ∧
      words value = us.flatMap words := by
  induction lines generalizing r es with
  | nil =>
      obtain ⟨p, rest, hnil, -⟩ := hset
      cases hnil
  | cons line lines ih =>
      obtain ⟨r₁, es₁, es₂, h₁, h₂, rfl⟩ := Reader.of_readAll_cons h
      rcases Reader.srcLines_cons h₁ lines with ⟨a, hname, -, hadd, hlines⟩ | ⟨-, -, hlines⟩
      · rw [hlines] at hset ⊢
        obtain ⟨p, rest, hcons, hop, happend⟩ := hset
        obtain ⟨rfl, rfl⟩ := List.cons.inj hcons
        have hop : a.op = .immediate := hop
        simp only [addVariable, hop, hname] at hadd
        obtain ⟨v, hv, hpool⟩ := Option.map_eq_some_iff.mp hadd
        have hnew : r₁.pool.vars srcName = some v := by
          rw [← hpool]
          simp [VariablePool.set]
        obtain ⟨value, us, hvalue, hus, hwords⟩ := words_append_srcLines h₂ happend hnew
        exact ⟨value, v :: us, hvalue, evaluated_cons hv hus, by rw [hwords, List.flatMap_cons]⟩
      · rw [hlines] at hset ⊢
        exact ih h₂ hset

/-! ### The module and the variable -/

/-- Texts of which the last has the words of all: there are none in the others. Both sides count:
all words together are those of the others and those of the last. -/
theorem sublist_words_last_iff {ts : List Str} {v : Str} (hv : ts.getLast? = some v) :
    (ts.flatMap words).Sublist (words v) ↔ ∀ t ∈ ts.dropLast, words t = [] := by
  have hsplit : ts = ts.dropLast ++ [v] := by
    have hne : ts ≠ [] := fun h => by rw [h] at hv; cases hv
    rw [List.getLast?_eq_some_getLast hne] at hv
    rw [← Option.some.inj hv, List.dropLast_append_getLast]
  have hflat : ts.flatMap words = ts.dropLast.flatMap words ++ words v := by
    conv_lhs => rw [hsplit]
    simp
  rw [hflat, ← List.flatMap_eq_nil_iff]
  constructor
  · intro h
    have hlen := h.length_le
    rw [List.length_append] at hlen
    exact List.eq_nil_of_length_eq_zero (by omega)
  · intro h
    rw [h]
    exact List.Sublist.refl _

/-- **The recorded sources hold the words of a section's lines exactly if the last line of the
module's last section does**; for that section itself, exactly if there are no words in the lines
in front of its last one. The variable always has the words of all lines, evaluated where they
stand. -/
theorem src_words_iff {f : MkFile} {s s' : Store} {n : Str} (hv : s.Valid)
    (hparse : parseMakefile env fuel f s = some s') (sec : ModuleSection env fuel f n)
    (hset : SetThenExtended (sec.start.srcLines env fuel sec.lines))
    (fin : LastSection env fuel f s n) (hn : (definedNames fin.events).getLast? = some n) :
    (∃ i, s'.find n = some i ∧
      ((∃ src, (s'.module i).src = some src ∧ ((srcTexts sec.events).flatMap words).Sublist (words src)) ↔
        ∃ v, (srcTexts fin.events).getLast? = some v ∧
          ((srcTexts sec.events).flatMap words).Sublist (words v)) ∧
      (sec.events = fin.events →
        ((∃ src, (s'.module i).src = some src ∧
            ((srcTexts sec.events).flatMap words).Sublist (words src)) ↔
          ∀ t ∈ (srcTexts sec.events).dropLast, words t = []))) ∧
    ∃ value us, sec.stop.pool.vars srcName = some value ∧
      evaluated env fuel (sec.start.srcLines env fuel sec.lines) = some us ∧
      words value = us.flatMap words := by
  obtain ⟨i, hfind, hsrc⟩ := fin.src hn hv hparse
  refine ⟨⟨i, hfind, by rw [hsrc], fun hsame => ?_⟩, words_srcLines sec.read_lines hset⟩
  -- the section has a line, so it has a last one
  obtain ⟨p, rest, hlines, -⟩ := hset
  have htexts := text_srcLines sec.read_lines
  rw [hlines, List.map_cons] at htexts
  obtain ⟨v, hlast⟩ : ∃ v, (srcTexts sec.events).getLast? = some v := by
    rw [← htexts]
    exact ⟨_, List.getLast?_eq_some_getLast (List.cons_ne_nil _ _)⟩
  rw [hsrc, ← hsame, hlast, ← sublist_words_last_iff hlast]
  constructor
  · intro h
    obtain ⟨src, hsrc, hwords⟩ := h
    rwa [← Option.some.inj hsrc] at hwords
  · intro h
    exact ⟨v, rfl, h⟩

/-- The lines of a section that sets the variable to nothing and then extends it. -/
def extendedLines : List Str :=
  ["LOCAL_MODULE := m".toList, "LOCAL_SRC_FILES :=".toList, "LOCAL_SRC_FILES += a.c b.c".toList]

/-- A makefile with this section, and another one before it. -/
def extended : MkFile :=
  ⟨"p/Android.mk".toList, ["LOCAL_MODULE := k".toList, "include $(CLEAR_VARS)".toList] ++
    (extendedLines ++ [])⟩

/-- Its variables where the section begins. -/
def extendedStart : Reader :=
  ⟨VariablePool.set ⟨"p/Android.mk".toList, fun _ => none⟩ "LOCAL_MODULE".toList ['k'], false⟩

theorem isSome_extended : (extendedStart.readAll Env.bare 9 extendedLines).isSome = true := by
  decide

/-- The reader and the events where the section ends. -/
def extendedStop : Reader × List Event :=
  (extendedStart.readAll Env.bare 9 extendedLines).get isSome_extended

theorem events_extended : extendedStop.2 =
    [.assign (.name "m".toList), .assign (.src []), .assign (.src "a.c b.c".toList)] := by
  decide

/-- The section of `extended`. -/
def extendedLast : LastSection Env.bare 9 extended Store.empty "m".toList where
  before := ["LOCAL_MODULE := k".toList, "include $(CLEAR_VARS)".toList]
  lines := extendedLines
  behind := []
  file_eq := rfl
  before_clear l h := by
    obtain rfl := Option.some.inj h
    decide
  lines_open := by
    simp only [extendedLines, List.forall_mem_cons]
    decide
  behind_clear l h := by cases h
  start := extendedStart
  stop := extendedStop.1
  last := extendedStop.1
  beforeEvents := [.assign (.name ['k']), .clear]
  events := extendedStop.2
  behindEvents := []
  read_before := rfl
  read_lines := (Option.some_get isSome_extended).symm
  read_behind := rfl
  named := by
    rw [events_extended]
    decide
  not_again k hk := by cases hk

theorem src_words_iff_extended :
    ∃ s, parseMakefile Env.bare 9 extended Store.empty = some s ∧
      ∃ i, s.find "m".toList = some i ∧ ∃ src, (s.module i).src = some src ∧
        ["a.c".toList, "b.c".toList].Sublist (words src) := by
  have hsome : (parseMakefile Env.bare 9 extended Store.empty).isSome = true := by decide
  obtain ⟨s, hs⟩ := Option.isSome_iff_exists.mp hsome
  have hops : (extendedStart.srcLines Env.bare 9 extendedLines).map (fun p => p.1.op) =
      [.immediate, .append] := by decide
  have hset : SetThenExtended (extendedStart.srcLines Env.bare 9 extendedLines) := by
    obtain ⟨p, rest, hlines, hp, hrest⟩ := List.map_eq_cons_iff.mp hops
    refine ⟨p, rest, hlines, hp, fun q hq => ?_⟩
    have hmem : q.1.op ∈ rest.map fun p => p.1.op := List.mem_map_of_mem hq
    rw [hrest] at hmem
    exact List.mem_singleton.mp hmem
  have hevents : extendedLast.events =
      [.assign (.name "m".toList), .assign (.src []), .assign (.src "a.c b.c".toList)] :=
    events_extended
  obtain ⟨⟨i, hi, -, hiff⟩, -⟩ := src_words_iff Store.valid_empty hs extendedLast.toModuleSection
    hset extendedLast (by rw [hevents]; decide)
  rw [hevents] at hiff
  exact ⟨s, hs, i, hi, (hiff rfl).mpr (by decide)⟩

/-- **The second line replaces the first**: the sources are `b.c`, the variable is `a.c b.c`. -/
theorem append_line_replaces :
    ∃ s, parseMakefile Env.bare 9 ⟨"p/Android.mk".toList, ["include $(CLEAR_VARS)".toList,
        "LOCAL_MODULE := m".toList, "LOCAL_SRC_FILES := a.c".toList,
        "LOCAL_SRC_FILES += b.c".toList]⟩ Store.empty = some s ∧
      s.find "m".toList = some 0 ∧ (s.module 0).src = some "b.c".toList ∧
      (Reader.readAll Env.bare 9 ⟨⟨"p/Android.mk".toList, fun _ => none⟩, false⟩
        ["LOCAL_MODULE := m".toList,
        "LOCAL_SRC_FILES := a.c".toList, "LOCAL_SRC_FILES += b.c".toList]).map
          (fun p => p.1.pool.vars srcName) = some (some "a.c b.c".toList) := by
  have hparse : (parseMakefile Env.bare 9 ⟨"p/Android.mk".toList, ["include $(CLEAR_VARS)".toList,
      "LOCAL_MODULE := m".toList, "LOCAL_SRC_FILES := a.c".toList,
      "LOCAL_SRC_FILES += b.c".toList]⟩ Store.empty).map
        (fun s => (s.find "m".toList, (s.module 0).src)) =
      some (some 0, some "b.c".toList) := by decide
  obtain ⟨s, hs, hall⟩ := Option.map_eq_some_iff.mp hparse
  obtain ⟨hfind, hsrc⟩ := Prod.mk.inj hall
  exact ⟨s, hs, hfind, hsrc, by decide +kernel⟩

end BlogStuff.Adepends
