import BlogStuff.Yaml.Scalar

/-!
# BlogStuff.Yaml.Flow

Single-line flow mappings of scalars as items of a sequence: `- { k1: v1, .., kn: vn }`.

The reader goes through the line once and keeps, for each entry, the text of the line
behind its colon. What it reads depends on two characters of lookahead at most
(`readFlowEntry_local`), so the value of one entry can be replaced without a change to what
the others are read as (`readFlowItem_replace`).
-/

namespace BlogStuff.Yaml

open BlogStuff.Python

/-! ### Scalars -/

/-- `c-flow-indicator`. -/
def isFlowIndicator (c : Char) : Bool := [',', '[', ']', '\x7b', '\x7d'].contains c

/-- `ns-plain-safe` in a flow context. -/
def isFlowSafe (c : Char) : Bool := isNsChar c && !isFlowIndicator c

/-- A plain scalar ends in front of this text: a flow indicator, a colon that ends a key,
a comment, or a character that is not printable. -/
def endsPlain : Str → Bool
  | [] => true
  | c :: s => isFlowIndicator c || !isNbChar c || (c == ':' && !(s.head?.map isFlowSafe).getD false) ||
      (isWhite c && s.head? == some '#')

/-- The text of a plain scalar, with the blanks behind it, and what follows. -/
def spanPlain : Str → Str × Str
  | [] => ([], [])
  | c :: s => if endsPlain (c :: s) then ([], c :: s) else (c :: (spanPlain s).1, (spanPlain s).2)

/-- A plain scalar may start here. -/
def flowFirst : Str → Bool
  | [] => false
  | c :: s =>
      if c = '-' ∨ c = '?' ∨ c = ':' then (s.head?.map isFlowSafe).getD false
      else isNsChar c && !isIndicator c

/-- A scalar of a flow mapping. The type of a plain one is left to `resolve`. -/
inductive FlowScalar
  | plain (t : Str)
  | quoted (t : Str)
  deriving DecidableEq, Repr

def FlowScalar.text : FlowScalar → Str
  | .plain t => t
  | .quoted t => t

def readFlowScalar (s : Str) : Option (FlowScalar × Str) :=
  if s.head? = some '"' then
    (readDouble .none s.tail).map fun (v, rest) => (.quoted v, rest)
  else if s.head? = some '\'' then
    (readSingle s.tail).map fun (v, rest) => (.quoted v, rest)
  else if flowFirst s then some (.plain (stripEnd (spanPlain s).1), (spanPlain s).2)
  else .none

/-! ### Mappings -/

/-- An entry, with the text of the line behind its colon. -/
structure FlowEntry where
  key : Str
  value : FlowScalar
  behind : Str
  deriving DecidableEq, Repr

/-- What a mapping maps. -/
def FlowEntry.pair (e : FlowEntry) : Str × FlowScalar := (e.key, e.value)

/-- The text behind the colon of a key. Behind a plain key the colon needs a blank. -/
def behindColon : FlowScalar → Str → Option Str
  | .plain _, ':' :: b :: t => if isWhite b then some (b :: t) else .none
  | .quoted _, ':' :: t => some t
  | _, _ => .none

def readFlowEntry (s : Str) : Option (FlowEntry × Str) := do
  let (k, s) ← readFlowScalar (s.dropWhile isWhite)
  let behind ← behindColon k (s.dropWhile isWhite)
  let (v, s) ← readFlowScalar (behind.dropWhile isWhite)
  return (⟨k.text, v, behind⟩, s.dropWhile isWhite)

/-- The entries up to the closing brace, which only blanks follow. Between two of them stands a
comma; the number bounds how many there are. -/
def readFlowEntries : Nat → Str → Option (List FlowEntry)
  | 0, _ => .none
  | n + 1, s =>
      match readFlowEntry s with
      | some (e, ',' :: rest) => (readFlowEntries n rest).map (e :: ·)
      | some (e, '\x7d' :: rest) => if rest.all isWhite then some [e] else .none
      | _ => .none

/-- The text behind the opening brace of an item. -/
def flowBody (s : Str) : Option Str :=
  match s.dropWhile isWhite with
  | '-' :: b :: t =>
      if isWhite b then
        match t.dropWhile isWhite with
        | '\x7b' :: t => some t
        | _ => .none
      else .none
  | _ => .none

/-- A line with one item. -/
def readFlowItem (s : Str) : Option (List FlowEntry) :=
  if s.all isNbJson then (flowBody s).bind fun t => readFlowEntries t.length t else .none

example : (readFlowItem "  - \x7b name: 'a b', port: 80 \x7d ".toList).map (·.map FlowEntry.pair) =
    some [("name".toList, .quoted "a b".toList), ("port".toList, .plain "80".toList)] := by
  decide

/-! ### Lookahead -/

/-- Two texts that end a scalar alike: they share two characters, or the flow indicator
they start with. -/
def SameStop (s t : Str) : Prop :=
  s.take 2 = t.take 2 ∨ ∃ x, isFlowIndicator x = true ∧ s.head? = some x ∧ t.head? = some x

theorem SameStop.head? {s t : Str} (h : SameStop s t) : s.head? = t.head? := by
  rcases h with h | ⟨x, -, hs, ht⟩
  · cases s <;> cases t <;> simp_all
  · rw [hs, ht]

theorem head?_append_congr {s t : Str} (h : s.head? = t.head?) (w : Str) :
    (w ++ s).head? = (w ++ t).head? := by
  cases w with
  | nil => exact h
  | cons c w => rfl

theorem SameStop.cons {s t : Str} (h : s.head? = t.head?) (c : Char) : SameStop (c :: s) (c :: t) := by
  refine Or.inl ?_
  cases s <;> cases t <;> simp_all

theorem SameStop.append {s t : Str} (h : SameStop s t) (w : Str) : SameStop (w ++ s) (w ++ t) := by
  cases w with
  | nil => exact h
  | cons c w => exact SameStop.cons (head?_append_congr h.head? w) c

theorem endsPlain_congr {s t : Str} (h : SameStop s t) (hs : endsPlain s = true) :
    endsPlain t = true := by
  cases s with
  | nil =>
      have hhead := h.head?
      cases t with
      | nil => rfl
      | cons c t => cases hhead
  | cons c s =>
      have hhead := h.head?
      cases t with
      | nil => cases hhead
      | cons d t =>
          obtain rfl : c = d := Option.some.inj hhead
          rcases h with h | ⟨x, hx, hc, -⟩
          · have hnext : s.head? = t.head? := by cases s <;> cases t <;> simp_all
            rwa [endsPlain, hnext] at hs
          · obtain rfl : c = x := Option.some.inj hc
            simp [endsPlain, hx]

/-- **A plain scalar depends on what follows by two characters**: a colon ends it or not by
the character behind it. -/
theorem spanPlain_local (s : Str) : s = (spanPlain s).1 ++ (spanPlain s).2 ∧
    ∀ t, SameStop (spanPlain s).2 t → spanPlain ((spanPlain s).1 ++ t) = ((spanPlain s).1, t) := by
  have hstop : ∀ t, endsPlain t = true → spanPlain t = ([], t) := by
    intro t ht
    cases t with
    | nil => rfl
    | cons d t => rw [spanPlain, if_pos ht]
  induction s with
  | nil => exact ⟨rfl, fun t ht => hstop t (endsPlain_congr ht rfl)⟩
  | cons c s ih =>
      rw [spanPlain]
      split_ifs with hc
      · exact ⟨rfl, fun t ht => hstop t (endsPlain_congr ht hc)⟩
      · refine ⟨congrArg (c :: ·) ih.1, fun t ht => ?_⟩
        -- the lookahead at `c` sees the same character
        have hhead : s.head? = ((spanPlain s).1 ++ t).head? := by
          conv_lhs => rw [ih.1]
          exact head?_append_congr ht.head? _
        have hc' : ¬ endsPlain (c :: ((spanPlain s).1 ++ t)) = true := by
          rwa [endsPlain, ← hhead]
        rw [List.cons_append, spanPlain, if_neg hc', ih.2 t ht]

theorem readFlowScalar_double (t : Str) : readFlowScalar ('"' :: t) =
    (readDouble .none t).map fun (v, rest) => (.quoted v, rest) := by
  rw [readFlowScalar, List.head?_cons, if_pos rfl, List.tail_cons]

theorem readFlowScalar_single (t : Str) : readFlowScalar ('\'' :: t) =
    (readSingle t).map fun (v, rest) => (.quoted v, rest) := by
  rw [readFlowScalar, List.head?_cons, if_neg (by decide), if_pos rfl, List.tail_cons]

/-- A plain scalar has a first character: what may begin one does not also end one. -/
theorem endsPlain_of_flowFirst {s : Str} (h : flowFirst s = true) : endsPlain s = false := by
  cases s with
  | nil => cases h
  | cons c s =>
      have hsub : isFlowIndicator c = true → isIndicator c = true := by
        intro hc
        simp only [isFlowIndicator, List.contains_iff_mem, List.mem_cons, List.not_mem_nil,
          or_false] at hc
        rcases hc with rfl | rfl | rfl | rfl | rfl <;> decide
      rw [flowFirst] at h
      split_ifs at h with hc
      · rcases hc with rfl | rfl | rfl <;> simp [endsPlain, h, isFlowIndicator, isWhite] <;> decide
      · obtain ⟨hns, hind⟩ := Bool.and_eq_true_iff.mp h
        obtain ⟨hnb, hwhite⟩ := Bool.and_eq_true_iff.mp hns
        have hflow : isFlowIndicator c = false := by
          by_contra hf
          rw [Bool.not_eq_false] at hf
          simp [hsub hf] at hind
        have hcolon : c ≠ ':' := fun h => hc (Or.inr (Or.inr h))
        simp only [Bool.not_eq_eq_eq_not, Bool.not_true] at hwhite
        simp [endsPlain, hflow, hnb, hcolon, hwhite]

/-- The same for any scalar. A quoted one ends with its quote; a plain one is read up to a character
that ends it, so the rest may be exchanged for one that ends it too. -/
theorem readFlowScalar_local {s rest : Str} {v : FlowScalar}
    (h : readFlowScalar s = some (v, rest)) :
    ∃ c, c ≠ [] ∧ s = c ++ rest ∧ ((∃ t, v = .plain t) ∨ c.getLast? = some '"' ∨
        c.getLast? = some '\'') ∧
      ∀ t, SameStop rest t → readFlowScalar (c ++ t) = some (v, t) := by
  by_cases hd : s.head? = some '"'
  · obtain ⟨u, rfl⟩ := List.head?_eq_some_iff.mp hd
    rw [readFlowScalar_double] at h
    obtain ⟨⟨v', rest'⟩, hread, heq⟩ := Option.map_eq_some_iff.mp h
    obtain ⟨rfl, rfl⟩ := Prod.mk.inj heq
    obtain ⟨c, rfl, -, hc⟩ := readDouble_local hread
    refine ⟨'"' :: (c ++ ['"']), List.cons_ne_nil _ _, by simp, ?_, fun t _ => ?_⟩
    · exact Or.inr (Or.inl (by rw [← List.cons_append, List.getLast?_concat]))
    · have hread' : readDouble .none (c ++ ['"'] ++ t) = some (v', t) := by simpa using hc t
      rw [List.cons_append, readFlowScalar_double, hread']
      rfl
  by_cases hs : s.head? = some '\''
  · obtain ⟨u, rfl⟩ := List.head?_eq_some_iff.mp hs
    rw [readFlowScalar_single] at h
    obtain ⟨⟨v', rest'⟩, hread, heq⟩ := Option.map_eq_some_iff.mp h
    obtain ⟨rfl, rfl⟩ := Prod.mk.inj heq
    obtain ⟨c, rfl, -, hc⟩ := readSingle_local hread
    refine ⟨'\'' :: (c ++ ['\'']), List.cons_ne_nil _ _, by simp, ?_, fun t ht => ?_⟩
    · exact Or.inr (Or.inr (by rw [← List.cons_append, List.getLast?_concat]))
    · have hread' : readSingle (c ++ ['\''] ++ t) = some (v', t) := by simpa using hc t ht.head?
      rw [List.cons_append, readFlowScalar_single, hread']
      rfl
  rw [readFlowScalar, if_neg hd, if_neg hs] at h
  split_ifs at h with hp
  obtain ⟨rfl, rfl⟩ := Prod.mk.inj (Option.some.inj h)
  obtain ⟨hsplit, hspan⟩ := spanPlain_local s
  cases s with
  | nil => cases hp
  | cons x s =>
      have hfst : (spanPlain (x :: s)).1 = x :: (spanPlain s).1 := by
        rw [spanPlain, if_neg (by rw [endsPlain_of_flowFirst hp]; decide)]
      refine ⟨_, by rw [hfst]; exact List.cons_ne_nil _ _, hsplit, Or.inl ⟨_, rfl⟩, fun t ht => ?_⟩
      -- neither the first character nor the one behind it has changed
      have hhead : ((spanPlain (x :: s)).1 ++ t).head? = some x := by rw [hfst]; rfl
      have hnext : s.head? = ((spanPlain s).1 ++ t).head? := by
        have htail : s = (spanPlain s).1 ++ (spanPlain (x :: s)).2 := by
          rw [hfst] at hsplit
          exact (List.cons.inj hsplit).2
        conv_lhs => rw [htail]
        exact head?_append_congr ht.head? _
      have hp' : flowFirst ((spanPlain (x :: s)).1 ++ t) = true := by
        rw [hfst, List.cons_append, flowFirst, ← hnext]
        exact hp
      rw [List.head?_cons] at hd hs
      rw [readFlowScalar, hhead, if_neg hd, if_neg hs, if_pos hp', hspan t ht]

/-! ### Entries -/

theorem dropWhile_white {w s : Str} (hw : ∀ c ∈ w, isWhite c = true)
    (hs : ∀ c, s.head? = some c → isWhite c = false) : (w ++ s).dropWhile isWhite = s := by
  rw [List.dropWhile_append_of_pos hw]
  cases s with
  | nil => rfl
  | cons c s => rw [List.dropWhile_cons_of_neg (by rw [hs c rfl]; decide)]

theorem exists_white (s : Str) : ∃ w, (∀ c ∈ w, isWhite c = true) ∧
    s = w ++ s.dropWhile isWhite ∧
    ∀ c, (s.dropWhile isWhite).head? = some c → isWhite c = false := by
  refine ⟨s.takeWhile isWhite, fun _ hc => List.mem_takeWhile_imp hc,
    List.takeWhile_append_dropWhile.symm, fun c hc => ?_⟩
  have h := List.head?_dropWhile_not isWhite s
  rw [hc] at h
  simpa using h

theorem readFlowEntry_inv {s rest : Str} {e : FlowEntry} (h : readFlowEntry s = some (e, rest)) :
    ∃ k s₁ s₂, readFlowScalar (s.dropWhile isWhite) = some (k, s₁) ∧
      behindColon k (s₁.dropWhile isWhite) = some e.behind ∧ e.key = k.text ∧
      readFlowScalar (e.behind.dropWhile isWhite) = some (e.value, s₂) ∧
      rest = s₂.dropWhile isWhite := by
  simp only [readFlowEntry, Option.bind_eq_bind, Option.bind_eq_some_iff, Option.pure_def,
    Option.some.injEq, Prod.mk.injEq] at h
  obtain ⟨⟨k, s₁⟩, hk, behind, hcolon, ⟨v, s₂⟩, hv, rfl, rfl⟩ := h
  exact ⟨k, s₁, s₂, hk, hcolon, rfl, hv, rfl⟩

theorem readFlowEntry_of {s s₁ behind : Str} {k : FlowScalar}
    (hk : readFlowScalar (s.dropWhile isWhite) = some (k, s₁))
    (hcolon : behindColon k (s₁.dropWhile isWhite) = some behind) :
    readFlowEntry s = (readFlowScalar (behind.dropWhile isWhite)).map fun (v, s₂) =>
      (⟨k.text, v, behind⟩, s₂.dropWhile isWhite) := by
  cases hv : readFlowScalar (behind.dropWhile isWhite) <;> simp [readFlowEntry, hk, hcolon, hv]

theorem behindColon_inv {k : FlowScalar} {s b : Str} (h : behindColon k s = some b) :
    s = ':' :: b ∧ (∀ t, k = .plain t → ∃ x, b.head? = some x ∧ isWhite x = true) ∧
      ∀ b', b'.head? = b.head? → behindColon k (':' :: b') = some b' := by
  unfold behindColon at h
  split at h
  · next x u =>
      split_ifs at h with hx
      obtain rfl := Option.some.inj h
      refine ⟨rfl, fun _ _ => ⟨x, rfl, hx⟩, fun b' hb' => ?_⟩
      obtain ⟨u', rfl⟩ := List.head?_eq_some_iff.mp hb'
      rw [behindColon, if_pos hx]
  · obtain rfl := Option.some.inj h
    exact ⟨rfl, fun _ hk => (FlowScalar.noConfusion hk), fun _ _ => rfl⟩
  · cases h

/-- How a key and its colon end: with a blank behind the colon, or with a quote in front
of it. -/
def KeyEnd (a behind : Str) : Prop :=
  (∃ x, behind.head? = some x ∧ isWhite x = true) ∨
    ∃ a₀ q w, a = a₀ ++ q :: (w ++ [':']) ∧ (∀ c ∈ w, isWhite c = true) ∧ (q = '"' ∨ q = '\'')

theorem KeyEnd.prepend {a behind : Str} (h : KeyEnd a behind) (c : Str) : KeyEnd (c ++ a) behind := by
  rcases h with h | ⟨a₀, q, w, rfl, hw, hq⟩
  · exact Or.inl h
  · exact Or.inr ⟨c ++ a₀, q, w, by simp, hw, hq⟩

/-- **The value of an entry can be replaced**: behind the same key the entry has whatever
value is read there. -/
theorem readFlowEntry_value {s rest : Str} {e : FlowEntry} (h : readFlowEntry s = some (e, rest)) :
    ∃ a, a ≠ [] ∧ s = a ++ e.behind ∧ KeyEnd a e.behind ∧ ∀ b, b.head? = e.behind.head? →
      readFlowEntry (a ++ b) = (readFlowScalar (b.dropWhile isWhite)).map fun (v, t) =>
        (⟨e.key, v, b⟩, t.dropWhile isWhite) := by
  obtain ⟨k, s₁, s₂, hk, hcolon, hkey, -, -⟩ := readFlowEntry_inv h
  obtain ⟨w₀, hw₀, hs, hhead⟩ := exists_white s
  obtain ⟨c, hc, hdrop, hkind, hlocal⟩ := readFlowScalar_local hk
  obtain ⟨w₁, hw₁, hs₁, -⟩ := exists_white s₁
  obtain ⟨hbehind, hplain, hback⟩ := behindColon_inv hcolon
  rw [hbehind] at hs₁
  have hend : KeyEnd (c ++ (w₁ ++ [':'])) e.behind := by
    rcases hkind with ⟨u, rfl⟩ | hq | hq
    · exact Or.inl (hplain u rfl)
    · obtain ⟨c₀, hc₀⟩ := List.getLast?_eq_some_iff.mp hq
      exact Or.inr ⟨c₀, '"', w₁, by simp [hc₀], hw₁, Or.inl rfl⟩
    · obtain ⟨c₀, hc₀⟩ := List.getLast?_eq_some_iff.mp hq
      exact Or.inr ⟨c₀, '\'', w₁, by simp [hc₀], hw₁, Or.inr rfl⟩
  refine ⟨w₀ ++ (c ++ (w₁ ++ [':'])), by simp, ?_, hend.prepend w₀, fun b hb => ?_⟩
  · rw [hs, hdrop, hs₁]
    simp
  · have hstop : SameStop s₁ (w₁ ++ ':' :: b) := by
      rw [hs₁]
      exact (SameStop.cons hb.symm ':').append w₁
    have hstart : ∀ x, (c ++ (w₁ ++ ':' :: b)).head? = some x → isWhite x = false := by
      intro x hx
      refine hhead x ?_
      rw [hdrop]
      cases c with
      | nil => exact absurd rfl hc
      | cons y c => exact hx
    have hread := readFlowEntry_of (s := w₀ ++ (c ++ (w₁ ++ ':' :: b)))
      (by rw [dropWhile_white hw₀ hstart]; exact hlocal _ hstop)
      (by rw [dropWhile_white hw₁ (by simp [isWhite])]; exact hback b hb)
    rw [hkey]
    simpa using hread

/-- **What an entry is read as depends on what follows by two characters.** The key and the value
are read up to the rest, and only the value looks at how the rest begins. -/
theorem readFlowEntry_local {s rest : Str} {e : FlowEntry} (h : readFlowEntry s = some (e, rest)) :
    ∃ c, c ≠ [] ∧ s = c ++ rest ∧ ∀ t, SameStop rest t →
      ∃ b, readFlowEntry (c ++ t) = some (⟨e.key, e.value, b⟩, t) := by
  obtain ⟨-, -, s₂, -, -, -, hv, hrest⟩ := readFlowEntry_inv h
  obtain ⟨a, ha, hs, -, hvalue⟩ := readFlowEntry_value h
  obtain ⟨w, hw, hbehind, hhead⟩ := exists_white e.behind
  obtain ⟨c, hc, hdrop, -, hlocal⟩ := readFlowScalar_local hv
  obtain ⟨w₂, hw₂, hs₂, hhead₂⟩ := exists_white s₂
  rw [← hrest] at hs₂ hhead₂
  refine ⟨a ++ (w ++ (c ++ w₂)), by simp [ha], ?_, fun t ht => ⟨w ++ (c ++ (w₂ ++ t)), ?_⟩⟩
  · rw [hs, hbehind, hdrop, hs₂]
    simp
  · have hfirst : ∀ u, (w ++ (c ++ u)).head? = e.behind.head? := by
      intro u
      rw [hbehind, hdrop]
      cases w with
      | nil =>
          cases c with
          | nil => exact absurd rfl hc
          | cons y c => rfl
      | cons x w => rfl
    have hstart : ∀ u x, (c ++ u).head? = some x → isWhite x = false := by
      intro u x hx
      refine hhead x ?_
      rw [hdrop]
      cases c with
      | nil => exact absurd rfl hc
      | cons y c => exact hx
    have hstop : SameStop s₂ (w₂ ++ t) := by
      rw [hs₂]
      exact ht.append w₂
    have hread := hvalue (w ++ (c ++ (w₂ ++ t))) (hfirst _)
    rw [dropWhile_white hw (hstart _), hlocal _ hstop] at hread
    simp only [Option.map_some] at hread
    rw [dropWhile_white hw₂ (by rw [← ht.head?]; exact hhead₂)] at hread
    simpa using hread

/-! ### Mappings -/

/-- Entries are read one by one, up to the brace: behind an entry there is a comma and more, or the
brace and only white space. -/
theorem readFlowEntries_inv {n : Nat} {s : Str} {es : List FlowEntry}
    (h : readFlowEntries n s = some es) : ∃ m e rest, n = m + 1 ∧
      ((readFlowEntry s = some (e, ',' :: rest) ∧
          ∃ es', readFlowEntries m rest = some es' ∧ es = e :: es') ∨
        (readFlowEntry s = some (e, '\x7d' :: rest) ∧ rest.all isWhite = true ∧ es = [e])) := by
  cases n with
  | zero => cases h
  | succ m =>
      rw [readFlowEntries] at h
      split at h
      · next e rest hread =>
          obtain ⟨es', hrest, rfl⟩ := Option.map_eq_some_iff.mp h
          exact ⟨m, e, rest, rfl, Or.inl ⟨hread, es', hrest, rfl⟩⟩
      · next e rest hread =>
          split_ifs at h with hwhite
          exact ⟨m, e, rest, rfl, Or.inr ⟨hread, hwhite, (Option.some.inj h).symm⟩⟩
      · cases h

theorem readFlowEntries_comma {m : Nat} {s rest : Str} {e : FlowEntry} {es : List FlowEntry}
    (he : readFlowEntry s = some (e, ',' :: rest)) (h : readFlowEntries m rest = some es) :
    readFlowEntries (m + 1) s = some (e :: es) := by
  rw [readFlowEntries, he]
  simp [h]

theorem readFlowEntries_brace {s rest : Str} {e : FlowEntry} (m : Nat)
    (he : readFlowEntry s = some (e, '\x7d' :: rest)) (h : rest.all isWhite = true) :
    readFlowEntries (m + 1) s = some [e] := by
  rw [readFlowEntries, he]
  simp only [h, if_true]

/-- The bound only has to cover the entries, as one is used up for each of them. -/
theorem readFlowEntries_fuel {n : Nat} {s : Str} {es : List FlowEntry}
    (h : readFlowEntries n s = some es) {m : Nat} (hm : es.length ≤ m) :
    readFlowEntries m s = some es := by
  induction n generalizing s es m with
  | zero => cases h
  | succ n ih =>
      obtain ⟨k, e, rest, hk, ⟨hread, es', hrest, rfl⟩ | ⟨hread, hwhite, rfl⟩⟩ := readFlowEntries_inv h
      · obtain rfl : n = k := Nat.succ.inj hk
        obtain ⟨m', rfl⟩ := Nat.exists_eq_succ_of_ne_zero (Nat.ne_of_gt (Nat.lt_of_lt_of_le
          (Nat.succ_pos es'.length) hm))
        exact readFlowEntries_comma hread (ih hrest (Nat.le_of_succ_le_succ hm))
      · obtain ⟨m', rfl⟩ := Nat.exists_eq_succ_of_ne_zero (Nat.ne_of_gt (Nat.lt_of_lt_of_le
          Nat.zero_lt_one hm))
        exact readFlowEntries_brace m' hread hwhite

theorem length_readFlowEntries {n : Nat} {s : Str} {es : List FlowEntry}
    (h : readFlowEntries n s = some es) : es.length ≤ s.length := by
  induction n generalizing s es with
  | zero => cases h
  | succ n ih =>
      obtain ⟨k, e, rest, hk, hcase⟩ := readFlowEntries_inv h
      obtain rfl : n = k := Nat.succ.inj hk
      rcases hcase with ⟨hread, es', hrest, rfl⟩ | ⟨hread, -, rfl⟩
      · obtain ⟨c, -, rfl, -⟩ := readFlowEntry_local hread
        have hlen := ih hrest
        simp only [List.length_cons, List.length_append]
        omega
      · obtain ⟨c, -, rfl, -⟩ := readFlowEntry_local hread
        simp only [List.length_cons, List.length_nil, List.length_append]
        omega

/-- **One value of a mapping can be replaced**, and the rest is read as before. By induction on the
entries before it, which `readFlowEntry_local` reads the same with the new text behind them. -/
theorem readFlowEntries_replace {n : Nat} {s : Str} {pre post : List FlowEntry} {e : FlowEntry}
    (h : readFlowEntries n s = some (pre ++ e :: post)) :
    ∃ a t x r, s = a ++ e.behind ∧ KeyEnd a e.behind ∧
      readFlowScalar (e.behind.dropWhile isWhite) = some (e.value, t) ∧
      t.dropWhile isWhite = x :: r ∧ (x = ',' ∨ x = '\x7d') ∧
      ∀ b v, b.head? = e.behind.head? → readFlowScalar (b.dropWhile isWhite) = some (v, t) →
        ∃ es, readFlowEntries n (a ++ b) = some es ∧
          es.map FlowEntry.pair = pre.map FlowEntry.pair ++ (e.key, v) :: post.map FlowEntry.pair := by
  induction pre generalizing n s with
  | nil =>
      obtain ⟨m, e', rest, rfl, hcase⟩ := readFlowEntries_inv h
      rcases hcase with ⟨hread, es', hrest, heq⟩ | ⟨hread, hwhite, heq⟩
      · obtain ⟨rfl, rfl⟩ := List.cons.inj heq
        obtain ⟨-, -, t, -, -, -, hv, ht⟩ := readFlowEntry_inv hread
        obtain ⟨a, -, hs, hend, hvalue⟩ := readFlowEntry_value hread
        refine ⟨a, t, ',', rest, hs, hend, hv, ht.symm, Or.inl rfl, fun b v hb hbv => ?_⟩
        have hnew := hvalue b hb
        simp only [hbv, Option.map_some, ← ht] at hnew
        exact ⟨_, readFlowEntries_comma hnew hrest, rfl⟩
      · obtain ⟨rfl, rfl⟩ := List.cons.inj heq
        obtain ⟨-, -, t, -, -, -, hv, ht⟩ := readFlowEntry_inv hread
        obtain ⟨a, -, hs, hend, hvalue⟩ := readFlowEntry_value hread
        refine ⟨a, t, '\x7d', rest, hs, hend, hv, ht.symm, Or.inr rfl, fun b v hb hbv => ?_⟩
        have hnew := hvalue b hb
        simp only [hbv, Option.map_some, ← ht] at hnew
        exact ⟨_, readFlowEntries_brace m hnew hwhite, rfl⟩
  | cons e₀ pre ih =>
      obtain ⟨m, e', rest, rfl, hcase⟩ := readFlowEntries_inv h
      rcases hcase with ⟨hread, es', hrest, heq⟩ | ⟨-, -, heq⟩
      · obtain ⟨rfl, rfl⟩ := List.cons.inj heq
        obtain ⟨a, t, x, r, rfl, hend, hv, ht, hx, hreplace⟩ := ih hrest
        obtain ⟨c, -, hs, hlocal⟩ := readFlowEntry_local hread
        refine ⟨c ++ ',' :: a, t, x, r, by rw [hs]; simp, (hend.prepend [',']).prepend c, hv, ht, hx,
          fun b v hb hbv => ?_⟩
        obtain ⟨es, hes, hpairs⟩ := hreplace b v hb hbv
        obtain ⟨b₀, hfirst⟩ := hlocal (',' :: (a ++ b)) (Or.inr ⟨',', rfl, rfl, rfl⟩)
        refine ⟨_, by simpa using readFlowEntries_comma hfirst hes, ?_⟩
        simp [hpairs, FlowEntry.pair]
      · simp at heq

/-- **Up to the value of an entry a mapping is read as before**, whatever stands there now: if
it is read at all, the entry is there with the value that is read in its place. -/
theorem readFlowEntries_value {n : Nat} {s : Str} {pre post : List FlowEntry} {e : FlowEntry}
    (h : readFlowEntries n s = some (pre ++ e :: post)) :
    ∃ a, s = a ++ e.behind ∧ ∀ {b m es}, b.head? = e.behind.head? →
      readFlowEntries m (a ++ b) = some es → ∃ pre' v t x r post', es = pre' ++ ⟨e.key, v, b⟩ :: post' ∧
        readFlowScalar (b.dropWhile isWhite) = some (v, t) ∧ t.dropWhile isWhite = x :: r ∧
        (x = ',' ∨ x = '\x7d') := by
  induction pre generalizing n s with
  | nil =>
      obtain ⟨_, e', rest, -, hcase⟩ := readFlowEntries_inv h
      have hread : ∃ rest', readFlowEntry s = some (e, rest') := by
        rcases hcase with ⟨hread, es', -, heq⟩ | ⟨hread, -, heq⟩ <;>
          exact ⟨_, by rw [(List.cons.inj heq).1]; exact hread⟩
      obtain ⟨rest', hread⟩ := hread
      obtain ⟨a, -, hs, -, hvalue⟩ := readFlowEntry_value hread
      refine ⟨a, hs, fun {b m es} hb hes => ?_⟩
      obtain ⟨_, e'', rest'', -, hcase''⟩ := readFlowEntries_inv hes
      rw [hvalue b hb] at hcase''
      rcases hcase'' with ⟨hnew, es', -, rfl⟩ | ⟨hnew, -, rfl⟩
      · obtain ⟨⟨v, t⟩, hv, heq⟩ := Option.map_eq_some_iff.mp hnew
        obtain ⟨rfl, ht⟩ := Prod.mk.inj heq
        exact ⟨[], v, t, ',', rest'', es', rfl, hv, ht, Or.inl rfl⟩
      · obtain ⟨⟨v, t⟩, hv, heq⟩ := Option.map_eq_some_iff.mp hnew
        obtain ⟨rfl, ht⟩ := Prod.mk.inj heq
        exact ⟨[], v, t, '\x7d', rest'', [], rfl, hv, ht, Or.inr rfl⟩
  | cons e₀ pre ih =>
      obtain ⟨m, e', rest, rfl, hcase⟩ := readFlowEntries_inv h
      rcases hcase with ⟨hread, es', hrest, heq⟩ | ⟨-, -, heq⟩
      · obtain ⟨rfl, rfl⟩ := List.cons.inj heq
        obtain ⟨a, rfl, hvalue⟩ := ih hrest
        obtain ⟨c, -, hs, hlocal⟩ := readFlowEntry_local hread
        refine ⟨c ++ ',' :: a, by rw [hs]; simp, fun {b k es} hb hes => ?_⟩
        obtain ⟨b₀, hfirst⟩ := hlocal (',' :: (a ++ b)) (Or.inr ⟨',', rfl, rfl, rfl⟩)
        rw [List.append_assoc, List.cons_append] at hes
        obtain ⟨k', e'', rest'', -, hcase''⟩ := readFlowEntries_inv hes
        rw [hfirst] at hcase''
        -- the entry in front is read as before, and a comma follows it
        rcases hcase'' with ⟨hnew, es', hes', rfl⟩ | ⟨hnew, -, -⟩
        · obtain ⟨-, hcomma⟩ := Prod.mk.inj (Option.some.inj hnew)
          obtain rfl := (List.cons.inj hcomma).2
          obtain ⟨pre', v, t, x, r, post', rfl, hv, ht, hx⟩ := hvalue hb hes'
          exact ⟨e'' :: pre', v, t, x, r, post', rfl, hv, ht, hx⟩
        · obtain ⟨-, hcomma⟩ := Prod.mk.inj (Option.some.inj hnew)
          exact absurd (List.cons.inj hcomma).1 (by decide)
      · simp at heq

/-- What follows the brace does not matter, beyond being white space. Every entry is read from its
own text and the character behind it, which stays the same. -/
theorem readFlowEntries_trim {n : Nat} {s : Str} {es : List FlowEntry}
    (h : readFlowEntries n s = some es) : ∃ d w, s = d ++ '\x7d' :: w ∧ w.all isWhite = true ∧
      ∃ es', readFlowEntries n (d ++ ['\x7d']) = some es' ∧
        es'.map FlowEntry.pair = es.map FlowEntry.pair := by
  induction n generalizing s es with
  | zero => cases h
  | succ n ih =>
      obtain ⟨k, e, rest, hk, hcase⟩ := readFlowEntries_inv h
      obtain rfl : n = k := Nat.succ.inj hk
      rcases hcase with ⟨hread, es', hrest, rfl⟩ | ⟨hread, hwhite, rfl⟩
      · obtain ⟨d, w, rfl, hw, es'', hes, hpairs⟩ := ih hrest
        obtain ⟨c, -, hs, hlocal⟩ := readFlowEntry_local hread
        refine ⟨c ++ ',' :: d, w, by rw [hs]; simp, hw, ?_⟩
        obtain ⟨b₀, hfirst⟩ := hlocal (',' :: (d ++ ['\x7d'])) (Or.inr ⟨',', rfl, rfl, rfl⟩)
        refine ⟨_, by simpa using readFlowEntries_comma hfirst hes, ?_⟩
        simp [hpairs, FlowEntry.pair]
      · obtain ⟨c, -, hs, hlocal⟩ := readFlowEntry_local hread
        obtain ⟨b₀, hfirst⟩ := hlocal ['\x7d'] (Or.inr ⟨'\x7d', rfl, rfl, rfl⟩)
        exact ⟨c, rest, hs, hwhite, _, readFlowEntries_brace n hfirst rfl, rfl⟩

/-! ### Items -/

theorem flowBody_inv {s t : Str} (h : flowBody s = some t) : ∃ w g, (∀ c ∈ w, isWhite c = true) ∧
    (∀ c ∈ g, isWhite c = true) ∧ g ≠ [] ∧ s = w ++ '-' :: (g ++ '\x7b' :: t) := by
  obtain ⟨w, hw, hs, -⟩ := exists_white s
  unfold flowBody at h
  split at h
  · next b u hdash =>
      split_ifs at h with hb
      obtain ⟨g, hg, hu, -⟩ := exists_white u
      split at h
      · next t' hbrace =>
          obtain rfl := Option.some.inj h
          rw [hbrace] at hu
          rw [hdash, hu] at hs
          refine ⟨w, b :: g, hw, ?_, List.cons_ne_nil _ _, hs⟩
          intro c hc
          rcases List.mem_cons.mp hc with rfl | hc
          · exact hb
          · exact hg c hc
      · cases h
  · cases h

theorem flowBody_of {w g : Str} (hw : ∀ c ∈ w, isWhite c = true) (hg : ∀ c ∈ g, isWhite c = true)
    (hne : g ≠ []) (t : Str) : flowBody (w ++ '-' :: (g ++ '\x7b' :: t)) = some t := by
  cases g with
  | nil => exact absurd rfl hne
  | cons b g =>
      have hg' : ∀ c ∈ g, isWhite c = true := fun c hc => hg c (List.mem_cons_of_mem _ hc)
      have hdash : (w ++ '-' :: (b :: g ++ '\x7b' :: t)).dropWhile isWhite =
          '-' :: b :: (g ++ '\x7b' :: t) := dropWhile_white hw (by simp [isWhite])
      have hbrace : (g ++ '\x7b' :: t).dropWhile isWhite = '\x7b' :: t :=
        dropWhile_white hg' (by simp [isWhite])
      simp only [flowBody, hdash, hbrace, hg b List.mem_cons_self, if_true]

theorem readFlowItem_inv {s : Str} {es : List FlowEntry} (h : readFlowItem s = some es) :
    s.all isNbJson = true ∧ ∃ w g t n, (∀ c ∈ w, isWhite c = true) ∧ (∀ c ∈ g, isWhite c = true) ∧
      g ≠ [] ∧ s = w ++ '-' :: (g ++ '\x7b' :: t) ∧ readFlowEntries n t = some es := by
  unfold readFlowItem at h
  split_ifs at h with hjson
  obtain ⟨t, hbody, hread⟩ := Option.bind_eq_some_iff.mp h
  obtain ⟨w, g, hw, hg, hne, hs⟩ := flowBody_inv hbody
  exact ⟨hjson, w, g, t, t.length, hw, hg, hne, hs, hread⟩

theorem readFlowItem_of {w g t : Str} {n : Nat} {es : List FlowEntry}
    (hw : ∀ c ∈ w, isWhite c = true) (hg : ∀ c ∈ g, isWhite c = true) (hne : g ≠ [])
    (hjson : t.all isNbJson = true) (h : readFlowEntries n t = some es) :
    readFlowItem (w ++ '-' :: (g ++ '\x7b' :: t)) = some es := by
  have hwhite : ∀ {u : Str}, (∀ c ∈ u, isWhite c = true) → u.all isNbJson = true := by
    intro u hu
    refine List.all_eq_true.mpr (fun c hc => ?_)
    have hc := hu c hc
    simp only [isWhite, Bool.or_eq_true, beq_iff_eq] at hc
    rcases hc with rfl | rfl <;> decide
  have hall : (w ++ '-' :: (g ++ '\x7b' :: t)).all isNbJson = true := by
    simp only [List.all_append, List.all_cons, hwhite hw, hwhite hg, hjson]
    decide
  rw [readFlowItem, if_pos hall, flowBody_of hw hg hne]
  exact readFlowEntries_fuel h (length_readFlowEntries h)

/-- **One value of an item can be replaced.** The dash and the brace stand in front of all entries;
the new text must not bring a character that no document may hold. -/
theorem readFlowItem_replace {s : Str} {pre post : List FlowEntry} {e : FlowEntry}
    (h : readFlowItem s = some (pre ++ e :: post)) :
    ∃ a t x r, s = a ++ e.behind ∧ KeyEnd a e.behind ∧
      readFlowScalar (e.behind.dropWhile isWhite) = some (e.value, t) ∧
      t.dropWhile isWhite = x :: r ∧ (x = ',' ∨ x = '\x7d') ∧
      ∀ b v, b.all isNbJson = true → b.head? = e.behind.head? →
        readFlowScalar (b.dropWhile isWhite) = some (v, t) →
        ∃ es, readFlowItem (a ++ b) = some es ∧
          es.map FlowEntry.pair = pre.map FlowEntry.pair ++ (e.key, v) :: post.map FlowEntry.pair := by
  obtain ⟨hjson, w, g, u, n, hw, hg, hne, rfl, hread⟩ := readFlowItem_inv h
  obtain ⟨a, t, x, r, rfl, hend, hv, ht, hx, hreplace⟩ := readFlowEntries_replace hread
  refine ⟨w ++ '-' :: (g ++ '\x7b' :: a), t, x, r, by simp,
    (((hend.prepend ['\x7b']).prepend g).prepend ['-']).prepend w, hv, ht, hx,
    fun b v hb hhead hbv => ?_⟩
  obtain ⟨es, hes, hpairs⟩ := hreplace b v hhead hbv
  refine ⟨es, ?_, hpairs⟩
  have ha : (a ++ b).all isNbJson = true := by
    simp only [List.all_append, List.all_cons, Bool.and_eq_true] at hjson ⊢
    exact ⟨hjson.2.2.2.2.1, hb⟩
  simpa using readFlowItem_of hw hg hne ha hes

/-- Up to the value of an entry an item is read as before, with any blanks in front of it. What is
read as the value, if anything, is read from the text put in its place. -/
theorem readFlowItem_value {s : Str} {pre post : List FlowEntry} {e : FlowEntry}
    (h : readFlowItem s = some (pre ++ e :: post)) :
    ∃ w d, (∀ c ∈ w, isWhite c = true) ∧ s = w ++ '-' :: (d ++ e.behind) ∧
      ∀ w' b, (∀ c ∈ w', isWhite c = true) → b.head? = e.behind.head? →
        (flowBody (w' ++ '-' :: (d ++ b))).isSome ∧
        ∀ {es}, readFlowItem (w' ++ '-' :: (d ++ b)) = some es →
          ∃ pre' v t x r post', es = pre' ++ ⟨e.key, v, b⟩ :: post' ∧
            readFlowScalar (b.dropWhile isWhite) = some (v, t) ∧ t.dropWhile isWhite = x :: r ∧
            (x = ',' ∨ x = '\x7d') := by
  obtain ⟨-, w, g, u, n, hw, hg, hne, rfl, hread⟩ := readFlowItem_inv h
  obtain ⟨a, rfl, hvalue⟩ := readFlowEntries_value hread
  refine ⟨w, g ++ '\x7b' :: a, hw, by simp, fun w' b hw' hb => ?_⟩
  have hbody : flowBody (w' ++ '-' :: (g ++ '\x7b' :: a ++ b)) = some (a ++ b) := by
    rw [List.append_assoc, List.cons_append]
    exact flowBody_of hw' hg hne _
  refine ⟨by rw [hbody]; rfl, fun {es} hes => ?_⟩
  unfold readFlowItem at hes
  split_ifs at hes
  rw [hbody, Option.bind_some] at hes
  exact hvalue hb hes

/-- An item starts with a dash and ends with a brace; the blanks around it do not matter. -/
theorem readFlowItem_trim {s : Str} {es : List FlowEntry} (h : readFlowItem s = some es) :
    ∃ w d w', (∀ c ∈ w, isWhite c = true) ∧ (∀ c ∈ w', isWhite c = true) ∧
      s = w ++ ('-' :: (d ++ ['\x7d']) ++ w') ∧
      ∀ v, (∀ c ∈ v, isWhite c = true) → ∃ es', readFlowItem (v ++ '-' :: (d ++ ['\x7d'])) = some es' ∧
        es'.map FlowEntry.pair = es.map FlowEntry.pair := by
  obtain ⟨hjson, w, g, u, n, hw, hg, hne, rfl, hread⟩ := readFlowItem_inv h
  obtain ⟨d, w', rfl, hw', es', hes, hpairs⟩ := readFlowEntries_trim hread
  refine ⟨w, g ++ '\x7b' :: d, w', hw, List.all_eq_true.mp hw', by simp, fun v hv => ⟨es', ?_, hpairs⟩⟩
  have hd : (d ++ ['\x7d']).all isNbJson = true := by
    simp only [List.all_append, List.all_cons, List.all_nil, Bool.and_eq_true] at hjson ⊢
    exact ⟨hjson.2.2.2.2.1, by decide, trivial⟩
  simpa using readFlowItem_of hv hg hne hd hes

end BlogStuff.Yaml
