import Mathlib.Data.List.Count
import Mathlib.Tactic

/-!
# BlogStuff.Link.Duplex

One connection between two ends that talk through a queue each way: a stream of items in both
directions, each under a single unit of credit.

An end reads from its own side only while it holds the credit of its direction. Reading sends
a `data` message and gives the credit away; the other end returns it with an `ack` once it
has passed everything on, so what it could not pass on yet (its backlog) never grows beyond
one message. An end that closes says `bye`, and keeps its backlog until that is passed on.

`End.Step` is what one end can do with its own state and its inbox; `Conn.Step` lets either
end move, and the far end come into being. The invariant `Conn.Inv` is a condition on each
end, one on the stage of the connection, and the same `Dir` in both directions:

* the credit is in one place, or nowhere once an end is gone;
* what an end has been given, what waits there and what is on the way make up what the other
  end has taken;
* nothing follows a `bye`, and an end whose partner has left has been told or will be.

The last point has an exception: an end that leaves while it asks (`Phase.withdrawn`) says
nothing of it. If the far end comes into being all the same, it is never told.
-/

namespace BlogStuff.Link

variable {α : Type}

inductive Msg (α : Type)
  | ask
  | ack
  | data (x : List α)
  | bye
  deriving DecidableEq

namespace Msg

def isAck : Msg α → Bool
  | ack => true
  | _ => false

def isData : Msg α → Bool
  | data _ => true
  | _ => false

/-- The items a message carries. -/
def items : Msg α → List α
  | data x => x
  | _ => []

@[simp] theorem isAck_ask : (ask : Msg α).isAck = false := rfl
@[simp] theorem isAck_ack : (ack : Msg α).isAck = true := rfl
@[simp] theorem isAck_data (x : List α) : (data x).isAck = false := rfl
@[simp] theorem isAck_bye : (bye : Msg α).isAck = false := rfl
@[simp] theorem isData_ask : (ask : Msg α).isData = false := rfl
@[simp] theorem isData_ack : (ack : Msg α).isData = false := rfl
@[simp] theorem isData_data (x : List α) : (data x).isData = true := rfl
@[simp] theorem isData_bye : (bye : Msg α).isData = false := rfl
@[simp] theorem items_ask : (ask : Msg α).items = [] := rfl
@[simp] theorem items_ack : (ack : Msg α).items = [] := rfl
@[simp] theorem items_data (x : List α) : (data x).items = x := rfl
@[simp] theorem items_bye : (bye : Msg α).items = [] := rfl

end Msg

inductive Phase
  /-- Not there yet. -/
  | absent
  /-- Has asked, and waits for the answer. -/
  | asking
  | linked
  /-- Has closed, with a backlog. -/
  | leaving
  | gone
  /-- Left in the same moment as it asked. -/
  | withdrawn
  deriving DecidableEq

/-- One end of a connection, with everything it has read from its side and passed on to it so far:
the results compare the two. -/
structure End (α : Type) where
  phase : Phase
  /-- It holds the credit to read from its side. -/
  reading : Bool
  /-- Received, and not passed on to its side yet. -/
  backlog : List α
  /-- Everything read from its side. -/
  taken : List α
  /-- Everything passed on to its side. -/
  given : List α

namespace End

/-- The end takes part in the connection. -/
def Live (e : End α) : Prop := e.phase = .asking ∨ e.phase = .linked

instance (e : End α) : Decidable e.Live := inferInstanceAs (Decidable (_ ∨ _))

/-- The end has closed. -/
def Left (e : End α) : Prop := e.phase = .leaving ∨ e.phase = .gone

/-- The end has no part in the connection any more. -/
def Over (e : End α) : Prop := e.Left ∨ e.phase = .withdrawn

/-- The end after it has closed. -/
def quit (e : End α) : End α :=
  { e with phase := if e.backlog.isEmpty then .gone else .leaving, reading := false }

/-- Nothing has happened at this end. -/
def blank (phase : Phase) : End α := ⟨phase, false, [], [], []⟩

/-- What an end can do: from its state, its inbox and whether it is cut off, to the same
after the step, and what it says. -/
inductive Step : End α → List (Msg α) → Bool → End α → List (Msg α) → Bool → List (Msg α) → Prop
  /-- Some of the backlog is passed on. -/
  | write {e : End α} {inbox cut} (out rest : List α) (phase : e.phase = .linked ∨ e.phase = .leaving)
      (split : e.backlog = out ++ rest) (more : rest ≠ []) :
      Step e inbox cut { e with given := e.given ++ out, backlog := rest } inbox cut []
  /-- All of the backlog is passed on, and the credit goes back. -/
  | drain {e : End α} {inbox cut} (phase : e.phase = .linked) (some : e.backlog ≠ []) :
      Step e inbox cut { e with given := e.given ++ e.backlog, backlog := [] } inbox cut [.ack]
  /-- The last of a closed end: its backlog is passed on, or dropped from some point on. -/
  | finish {e : End α} {inbox cut} (out rest : List α) (phase : e.phase = .leaving)
      (split : e.backlog = out ++ rest) :
      Step e inbox cut { e with phase := .gone, given := e.given ++ out, backlog := [] } inbox cut []
  /-- Items are read and sent. -/
  | pass {e : End α} {inbox cut} (x : List α) (phase : e.phase = .linked) (credit : e.reading = true)
      (some : x ≠ []) :
      Step e inbox cut { e with taken := e.taken ++ x, reading := false } inbox cut [.data x]
  /-- Items are read after the connection was cut, and dropped. -/
  | waste {e : End α} {inbox} (x : List α) (phase : e.phase = .leaving) :
      Step e inbox true { e with taken := e.taken ++ x } inbox true []
  | quit {e : End α} {inbox cut} (phase : e.phase = .linked) :
      Step e inbox cut e.quit inbox cut [.bye]
  /-- An end that waits is closed after the connection was cut. -/
  | giveUp {e : End α} {inbox} (phase : e.phase = .asking) :
      Step e inbox true { e with phase := .gone } inbox true []
  | hearAck {e : End α} {inbox} (live : e.Live) :
      Step e (.ack :: inbox) false { e with phase := .linked, reading := true } inbox false []
  | hearData {e : End α} {inbox} (x : List α) (phase : e.phase = .linked) (none : e.backlog = []) :
      Step e (.data x :: inbox) false { e with given := e.given ++ x } inbox false [.ack]
  | hearPart {e : End α} {inbox} (out rest : List α) (phase : e.phase = .linked)
      (none : e.backlog = []) (more : rest ≠ []) :
      Step e (.data (out ++ rest) :: inbox) false
        { e with given := e.given ++ out, backlog := rest } inbox false []
  /-- Passing on fails for good. -/
  | hearFail {e : End α} {inbox} (out rest : List α) (phase : e.phase = .linked)
      (none : e.backlog = []) :
      Step e (.data (out ++ rest) :: inbox) false
        { e with given := e.given ++ out, phase := .gone, reading := false } inbox false [.bye]
  | hearBye {e : End α} {inbox} (phase : e.phase = .linked) :
      Step e (.bye :: inbox) false e.quit inbox false [.bye]
  | hearNo {e : End α} {inbox} (phase : e.phase = .asking) :
      Step e (.bye :: inbox) false { e with phase := .gone } inbox false []
  /-- Whatever comes after the end has closed. -/
  | ignore {e : End α} {m inbox} (done : e.Over) : Step e (m :: inbox) false e inbox false []
  /-- The connection breaks under an end. -/
  | cutOff {e : End α} {inbox} (phase : e.phase = .linked) : Step e inbox false e.quit inbox true []
  | cutIdle {e : End α} {inbox} (phase : e.phase ≠ .linked) : Step e inbox false e inbox true []

/-- Any number of steps of one end, and all it says meanwhile. -/
inductive Steps (e : End α) (inbox : List (Msg α)) (cut : Bool) :
    End α → List (Msg α) → Bool → List (Msg α) → Prop
  | refl : Steps e inbox cut e inbox cut []
  | tail {e' e'' : End α} {inbox' inbox'' out out' : List (Msg α)} {cut' cut'' : Bool}
      (steps : Steps e inbox cut e' inbox' cut' out)
      (step : e'.Step inbox' cut' e'' inbox'' cut'' out') :
      Steps e inbox cut e'' inbox'' cut'' (out ++ out')

/-- What can come to an end as it is. -/
structure Expects (e : End α) (m : Msg α) : Prop where
  ask : m ≠ .ask
  wait : e.phase = .asking → ∀ x, m ≠ .data x
  back : e.phase = .linked → ∀ x, m = .data x → e.backlog = []

end End

/-- A connection: the end that asked for it, the end it asked for, what is on the way to
each, and which ends are cut off. -/
structure Conn (α : Type) where
  near : End α
  far : End α
  toFar : List (Msg α)
  toNear : List (Msg α)
  cutNear : Bool
  cutFar : Bool

namespace Conn

inductive Step : Conn α → Conn α → Prop
  | near {c : Conn α} {e inbox cut out} (step : c.near.Step c.toNear c.cutNear e inbox cut out) :
      Step c { c with near := e, toNear := inbox, cutNear := cut, toFar := c.toFar ++ out }
  | far {c : Conn α} {e inbox cut out} (step : c.far.Step c.toFar c.cutFar e inbox cut out) :
      Step c { c with far := e, toFar := inbox, cutFar := cut, toNear := c.toNear ++ out }
  /-- The far end comes into being. -/
  | serve {c : Conn α} {inbox} (phase : c.far.phase = .absent) (cut : c.cutFar = false)
      (asked : c.toFar = .ask :: inbox) :
      Step c { c with
        far := { c.far with phase := .linked, reading := true }
        toFar := inbox
        toNear := c.toNear ++ [.ack] }
  | refuse {c : Conn α} {inbox} (phase : c.far.phase = .absent) (cut : c.cutFar = false)
      (asked : c.toFar = .ask :: inbox) :
      Step c { c with toFar := inbox, toNear := c.toNear ++ [.bye] }

/-- An end has asked, and waits or has left at once; `toFar` holds the question, or it was
lost. -/
def Initial (c : Conn α) : Prop :=
  (c.near = .blank .asking ∨ c.near = .blank .withdrawn) ∧ c.far = .blank .absent ∧
    (c.toFar = [.ask] ∨ c.toFar = []) ∧ c.toNear = []

/-- The connections that can come about. -/
def Reachable (c : Conn α) : Prop := ∃ c₀ : Conn α, c₀.Initial ∧ Relation.ReflTransGen Step c₀ c

end Conn

/-! ### The invariant -/

/-- The places where the credit of the direction from `a` to `b` can be: `a` may read, a
message is on the way to `b`, `b` has a backlog, or the credit is on its way back. -/
def credit (a b : End α) (m m' : List (Msg α)) : Nat :=
  a.reading.toNat + m.countP Msg.isData + (if b.Live ∧ b.backlog ≠ [] then 1 else 0) +
    m'.countP Msg.isAck

/-- One direction: `a` sends to `b`, `m` is on the way to `b` and `m'` on the way to `a`. There is
one credit, wherever it is, and what has arrived is the front of what was read. -/
structure Dir (a b : End α) (m m' : List (Msg α)) (cut : Bool) : Prop where
  credit_le : credit a b m m' ≤ 1
  credit_eq : a.Live → b.Live → credit a b m m' = 1
  stream : b.given ++ b.backlog <+: a.taken
  flow : b.Live → ∃ lost, b.given ++ b.backlog ++ m.flatMap Msg.items ++ lost = a.taken ∧
    (cut = false → lost = [])
  last : ∀ l r, m = l ++ .bye :: r → r = []
  silent : a.phase = .linked → cut = false ∧ .bye ∉ m
  told : b.Live → a.Left → cut = false → .bye ∈ m
  full : ∀ x, .data x ∈ m → x ≠ []

/-- What holds of each end by itself. -/
structure End.Ok (e : End α) : Prop where
  reading : e.reading = true → e.phase = .linked
  leaving : e.phase = .leaving → e.backlog ≠ []
  backlog : e.backlog ≠ [] → e.phase = .linked ∨ e.phase = .leaving
  early : e.phase = .asking ∨ e.phase = .absent → e.taken = [] ∧ e.given = []

/-- How far the connection has come; `cut` is that of the near end. Before the answer only the
request or a refusal is on the way; after it the request has gone. -/
structure Stage (near far : End α) (toFar toNear : List (Msg α)) (cut : Bool) : Prop where
  near_there : near.phase ≠ .absent
  far_asked : far.phase ≠ .asking ∧ far.phase ≠ .withdrawn
  ask : .ask ∉ toNear
  before : far.phase = .absent → near.phase ≠ .linked ∧ near.phase ≠ .leaving ∧ near.taken = [] ∧
    near.given = [] ∧ ((toFar = [.ask] ∧ toNear = []) ∨ (toFar = [] ∧ (toNear = [] ∨ toNear = [.bye])))
  open_question : far.phase = .absent → toFar = [.ask] →
    near.phase = .asking ∨ near.phase = .withdrawn ∨ cut = true
  answered : far.phase ≠ .absent → .ask ∉ toFar
  waiting : near.phase = .asking → far.phase ≠ .absent → toFar = [] ∧ ∃ r, toNear = .ack :: r
  untold : near.phase = .withdrawn → far.phase ≠ .absent → toFar = []

structure Conn.Inv (c : Conn α) : Prop where
  near_ok : c.near.Ok
  far_ok : c.far.Ok
  stage : Stage c.near c.far c.toFar c.toNear c.cutNear
  out : Dir c.near c.far c.toFar c.toNear c.cutNear
  back : Dir c.far c.near c.toNear c.toFar c.cutFar

/-! ### Steps of one end -/

namespace End

variable {e e' : End α} {inbox inbox' out m m' : List (Msg α)} {cut cut' : Bool}

theorem quit_left (e : End α) : e.quit.Left := by
  by_cases h : e.backlog = []
  · exact Or.inr (by simp [quit, h])
  · exact Or.inl (by simp [quit, h])

theorem Left.not_live (h : e.Left) : ¬ e.Live := by
  rcases h with h | h <;> simp [Live, h]

theorem Left.ne_linked (h : e.Left) : e.phase ≠ .linked := by
  rcases h with h | h <;> simp [h]

theorem Left.ne_withdrawn (h : e.Left) : e.phase ≠ .withdrawn := by
  rcases h with h | h <;> simp [h]

theorem Over.not_live (h : e.Over) : ¬ e.Live := by
  rcases h with h | h
  · exact h.not_live
  · simp [Live, h]

theorem ok_quit (e : End α) : e.quit.Ok := by
  by_cases hb : e.backlog = [] <;> constructor <;> simp [quit, hb]

theorem Ok.step (h : e.Ok) (hs : e.Step inbox cut e' inbox' cut' out) : e'.Ok := by
  obtain ⟨hread, hleav, hback, hearly⟩ := h
  cases hs with
  | quit | hearBye | cutOff => exact ok_quit e
  | write out rest phase split more =>
      refine ⟨hread, fun _ => more, fun _ => phase, fun hp => ?_⟩
      rcases phase with phase | phase <;> simp [phase] at hp
  | _ => constructor <;> simp_all [Live]

theorem Steps.trans {e'' : End α} {inbox'' out' : List (Msg α)} {cut'' : Bool}
    (h : Steps e inbox cut e' inbox' cut' out) (h' : Steps e' inbox' cut' e'' inbox'' cut'' out') :
    Steps e inbox cut e'' inbox'' cut'' (out ++ out') := by
  induction h' with
  | refl => rwa [List.append_nil]
  | tail _ step ih =>
      rw [← List.append_assoc]
      exact ih.tail step

theorem Step.steps (h : e.Step inbox cut e' inbox' cut' out) :
    Steps e inbox cut e' inbox' cut' out := Steps.refl.tail h

/-- Only a connected end says anything. -/
theorem Step.mute (h : e.Step inbox cut e' inbox' cut' out) (hp : e.phase ≠ .linked) : out = [] := by
  cases h <;> simp_all

theorem Step.not_linked (h : e.Step [] cut e' inbox' cut' out) (hp : e.phase ≠ .linked) :
    inbox' = [] ∧ e'.phase ≠ .linked := by
  cases h <;> simp_all

theorem Steps.mute (h : Steps e [] cut e' inbox' cut' out) (hp : e.phase ≠ .linked) : out = [] := by
  suffices inbox' = [] ∧ e'.phase ≠ .linked ∧ out = [] from this.2.2
  induction h with
  | refl => exact ⟨rfl, hp, rfl⟩
  | tail _ step ih =>
      obtain ⟨rfl, hp', rfl⟩ := ih
      obtain ⟨hinbox, hp''⟩ := step.not_linked hp'
      exact ⟨hinbox, hp'', by rw [step.mute hp', List.append_nil]⟩

end End

/-! ### One direction -/

namespace Dir

variable {a b a' b' : End α} {m m' m'' out : List (Msg α)} {cut cut' cutb cutb' : Bool}

/-- Only the phase, the credit and what was read matter of the sender, and only the acks of
what it has yet to hear. -/
theorem congr_sender (hd : Dir a b m m' cut) (hp : a'.phase = a.phase) (hr : a'.reading = a.reading)
    (ht : a'.taken = a.taken) (hm : m''.countP Msg.isAck = m'.countP Msg.isAck) :
    Dir a' b m m'' cut := by
  obtain ⟨hle, heq, hstream, hflow, hlast, hsilent, htold, hfull⟩ := hd
  constructor <;> grind [credit, End.Live, End.Left]

theorem last_of_notMem (hbye : .bye ∉ m) (l r : List (Msg α)) (h : m = l ++ .bye :: r) : r = [] := by
  simp [h] at hbye

/-- An ack to the other end does not touch the direction it goes in: it carries no data there, and a
linked end has not said goodbye yet. -/
theorem say_ack (hd : Dir a b m m' cut) (hp : a.phase = .linked) : Dir a b (m ++ [.ack]) m' cut := by
  obtain ⟨hle, heq, hstream, hflow, hlast, hsilent, htold, hfull⟩ := hd
  have hbye := (hsilent hp).2
  have hcredit : credit a b (m ++ [.ack]) m' = credit a b m m' := by
    simp [credit, List.countP_append, Msg.isData]
  refine ⟨?_, ?_, hstream, ?_, ?_, ?_, ?_, ?_⟩
  · rw [hcredit]
    exact hle
  · rw [hcredit]
    exact heq
  · simpa [Msg.items] using hflow
  · exact last_of_notMem (by simpa using hbye)
  · simpa [hp] using hsilent
  · intro _ hleft
    exact absurd hp hleft.ne_linked
  · simpa using hfull

theorem eq_nil_of_last {l r : List (Msg α)} (hbye : .bye ∉ m) (h : m ++ [.bye] = l ++ .bye :: r) :
    r = [] := by
  rcases List.eq_nil_or_concat r with rfl | ⟨r, x, rfl⟩
  · rfl
  · rw [List.concat_eq_append, ← List.cons_append, ← List.append_assoc] at h
    have hm : m = l ++ .bye :: r := List.init_eq_of_concat_eq (by simpa using h)
    simp [hm] at hbye

/-- The sender closes and says so. -/
theorem leave (hd : Dir a b m m' cut) (hp : a.phase = .linked) (ha : a'.Left)
    (hr : a'.reading = false) (ht : a'.taken = a.taken)
    (hm : m''.countP Msg.isAck ≤ m'.countP Msg.isAck) : Dir a' b (m ++ [.bye]) m'' cut := by
  obtain ⟨hle, heq, hstream, hflow, hlast, hsilent, htold, hfull⟩ := hd
  have hbye := (hsilent hp).2
  refine ⟨?_, fun hlive => absurd hlive ha.not_live, ht ▸ hstream, ?_, ?_,
    fun hlinked => absurd hlinked ha.ne_linked, fun _ _ _ => by simp, ?_⟩
  · simp only [credit, hr, List.countP_append, Msg.isData, List.countP_cons, List.countP_nil] at hle ⊢
    grind
  · simpa [Msg.items, ht] using hflow
  · exact fun l r => eq_nil_of_last hbye
  · simpa using hfull

/-- The sender is cut off. -/
theorem cut_off (hd : Dir a b m m' cut) (ha : a'.Left) (hr : a'.reading = false)
    (ht : a'.taken = a.taken) : Dir a' b m m' true := by
  obtain ⟨hle, heq, hstream, hflow, hlast, hsilent, htold, hfull⟩ := hd
  refine ⟨?_, fun hlive => absurd hlive ha.not_live, ht ▸ hstream, ?_, hlast,
    fun hlinked => absurd hlinked ha.ne_linked, by simp, hfull⟩
  · simp only [credit, hr] at hle ⊢
    grind
  · intro hb
    obtain ⟨lost, hlost, -⟩ := hflow hb
    exact ⟨lost, by rw [ht, hlost], by simp⟩

theorem give_up (hd : Dir a b m m' cut) (hm : m''.countP Msg.isAck ≤ m'.countP Msg.isAck)
    (hdead : ¬ b.Live ∨ cut = true) : Dir { a with phase := .gone } b m m'' cut := by
  obtain ⟨hle, heq, hstream, hflow, hlast, hsilent, htold, hfull⟩ := hd
  constructor <;> grind [credit, End.Live, End.Left]

/-- The sender reads. It spends the one credit it has, so the data it sends is the only data on its
way, and the stream grows at the end. -/
theorem read (hd : Dir a b m m' cut) (hp : a.phase = .linked) (hr : a.reading = true) {x : List α}
    (hx : x ≠ []) : Dir { a with taken := a.taken ++ x, reading := false } b (m ++ [.data x]) m' cut := by
  obtain ⟨hle, heq, hstream, hflow, hlast, hsilent, htold, hfull⟩ := hd
  obtain ⟨hcut, hbye⟩ := hsilent hp
  have hcredit : credit { a with taken := a.taken ++ x, reading := false } b (m ++ [.data x]) m' =
      credit a b m m' := by
    simp only [credit, hr, List.countP_append, List.countP_singleton, Msg.isData, if_true,
      Bool.toNat_true, Bool.toNat_false]
    omega
  refine ⟨?_, ?_, ?_, ?_, ?_, ?_, ?_, ?_⟩
  · rw [hcredit]
    exact hle
  · rw [hcredit]
    exact heq
  · exact hstream.trans (List.prefix_append _ _)
  · intro hb
    obtain ⟨lost, hlost, hnone⟩ := hflow hb
    obtain rfl := hnone hcut
    exact ⟨[], by simp [← hlost, Msg.items], fun _ => rfl⟩
  · exact last_of_notMem (by simpa using hbye)
  · intro _
    exact ⟨hcut, by simpa using hbye⟩
  · intro _ hleft
    exact absurd hp hleft.ne_linked
  · intro y hy
    rcases List.mem_append.mp hy with hy | hy
    · exact hfull y hy
    · cases List.mem_singleton.mp hy
      exact hx

/-- The sender gets the credit back. Before, it was not reading, because the credit that is on its
way as an `ack` cannot also be in its hands. -/
theorem hear_ack (hd : Dir a b m (.ack :: m') cut) (hlive : a.Live) (hcut : cut = false)
    (hbye : .bye ∉ m) : Dir { a with phase := .linked, reading := true } b m m' cut := by
  obtain ⟨hle, heq, hstream, hflow, hlast, hsilent, htold, hfull⟩ := hd
  have hacks : (Msg.ack :: m').countP Msg.isAck = m'.countP Msg.isAck + 1 :=
    List.countP_cons_of_pos rfl
  have hread : a.reading = false := by
    cases h : a.reading with
    | false => rfl
    | true =>
        rw [credit, hacks, h, Bool.toNat_true] at hle
        omega
  have hcredit : credit { a with phase := .linked, reading := true } b m m' =
      credit a b m (.ack :: m') := by
    simp only [credit, hacks, hread, Bool.toNat_true, Bool.toNat_false]
    omega
  refine ⟨?_, ?_, hstream, hflow, hlast, fun _ => ⟨hcut, hbye⟩, ?_, hfull⟩
  · rw [hcredit]
    exact hle
  · rw [hcredit]
    exact fun _ => heq hlive
  · intro _ hleft
    exact absurd rfl hleft.ne_linked

theorem stay_left (hd : Dir a b m m' cut) (ha : a.Left) (ha' : a'.Left)
    (hr : a'.reading = a.reading) (ht : a'.taken = a.taken) : Dir a' b m m' cut := by
  obtain ⟨hle, heq, hstream, hflow, hlast, hsilent, htold, hfull⟩ := hd
  refine ⟨?_, fun hlive => absurd hlive ha'.not_live, ht ▸ hstream, ht ▸ hflow, hlast,
    fun hlinked => absurd hlinked ha'.ne_linked, fun hb _ => htold hb ha, hfull⟩
  simp only [credit, hr] at hle ⊢
  omega

/-- A sender that is over hears what it has no use for. -/
theorem deaf (hd : Dir a b m m' cut) (ha : ¬ a.Live) (hm : m''.countP Msg.isAck ≤ m'.countP Msg.isAck) :
    Dir a b m m'' cut := by
  obtain ⟨hle, heq, hstream, hflow, hlast, hsilent, htold, hfull⟩ := hd
  refine ⟨?_, fun hlive => absurd hlive ha, hstream, hflow, hlast, hsilent, htold, hfull⟩
  simp only [credit] at hle ⊢
  omega

/-- The sender reads on after the connection was cut. -/
theorem read_late (hd : Dir a b m m' true) (ha : a.Left) (x : List α) :
    Dir { a with taken := a.taken ++ x } b m m' true := by
  obtain ⟨hle, heq, hstream, hflow, hlast, hsilent, htold, hfull⟩ := hd
  refine ⟨hle, fun hlive => absurd hlive ha.not_live, hstream.trans (List.prefix_append _ _), ?_,
    hlast, hsilent, by simp, hfull⟩
  intro hb
  obtain ⟨lost, hlost, -⟩ := hflow hb
  exact ⟨lost ++ x, by rw [← List.append_assoc, hlost], by simp⟩

theorem cut_idle (hd : Dir a b m m' cut) (hp : a.phase ≠ .linked) : Dir a b m m' true := by
  obtain ⟨hle, heq, hstream, hflow, hlast, hsilent, htold, hfull⟩ := hd
  refine ⟨hle, heq, hstream, ?_, hlast, fun h => absurd h hp, by simp, hfull⟩
  intro hb
  obtain ⟨lost, hlost, -⟩ := hflow hb
  exact ⟨lost, hlost, by simp⟩

/-- A step of the sender keeps its direction. An end that still waits for an answer has not
said `bye`, and hears it only from an end that never was there. -/
theorem of_sender (hd : Dir a b m m' cut) (hs : a.Step m' cut a' m'' cut' out)
    (hask : a.phase = .asking → .bye ∉ m ∧ ∀ r, m' = .bye :: r → ¬ b.Live) :
    Dir a' b (m ++ out) m'' cut' := by
  cases hs with
  | write out rest phase split more =>
      rw [List.append_nil]
      exact hd.congr_sender rfl rfl rfl rfl
  | drain phase some => exact (hd.say_ack phase).congr_sender rfl rfl rfl rfl
  | finish out rest phase split =>
      rw [List.append_nil]
      exact hd.stay_left (Or.inl phase) (Or.inr rfl) rfl rfl
  | pass x phase credit some => exact hd.read phase credit some
  | waste x phase =>
      rw [List.append_nil]
      exact hd.read_late (Or.inl phase) x
  | quit phase => exact hd.leave phase a.quit_left rfl rfl le_rfl
  | giveUp phase =>
      rw [List.append_nil]
      exact hd.give_up le_rfl (Or.inr rfl)
  | hearAck live =>
      rw [List.append_nil]
      refine hd.hear_ack live rfl ?_
      rcases live with phase | phase
      · exact (hask phase).1
      · exact (hd.silent phase).2
  | hearData x phase none => exact (hd.say_ack phase).congr_sender rfl rfl rfl rfl
  | hearPart out rest phase none more =>
      rw [List.append_nil]
      exact hd.congr_sender rfl rfl rfl rfl
  | hearFail out rest phase none => exact hd.leave phase (Or.inr rfl) rfl rfl le_rfl
  | hearBye phase => exact hd.leave phase a.quit_left rfl rfl le_rfl
  | hearNo phase =>
      rw [List.append_nil]
      exact hd.give_up le_rfl (Or.inl ((hask phase).2 _ rfl))
  | ignore done =>
      rw [List.append_nil]
      refine hd.deaf done.not_live ?_
      rw [List.countP_cons]
      omega
  | cutOff phase =>
      rw [List.append_nil]
      exact hd.cut_off a.quit_left rfl rfl
  | cutIdle phase =>
      rw [List.append_nil]
      exact hd.cut_idle phase

/-! The receiver -/

/-- Only what was passed on, what waits, and whether it is live matter of the receiver. -/
theorem congr_receiver (hd : Dir a b m m' cut) (hl : b'.Live ↔ b.Live)
    (hg : b'.given ++ b'.backlog = b.given ++ b.backlog) (hb : b'.backlog ≠ [] ↔ b.backlog ≠ [])
    (hm : m''.countP Msg.isAck = m'.countP Msg.isAck) : Dir a b' m m'' cut := by
  obtain ⟨hle, heq, hstream, hflow, hlast, hsilent, htold, hfull⟩ := hd
  have hcredit : credit a b' m m'' = credit a b m m' := by
    simp only [credit, hl, hb, hm]
  exact ⟨hcredit ▸ hle, fun ha hb => hcredit ▸ heq ha (hl.mp hb), hg ▸ hstream,
    fun hb => hg ▸ hflow (hl.mp hb), hlast, hsilent, fun hb => htold (hl.mp hb), hfull⟩

/-- The receiver is live no more. -/
theorem receiver_left (hd : Dir a b m m' cut) (hl : ¬ b'.Live)
    (hg : b'.given ++ b'.backlog <+: a.taken) (hm : m''.countP Msg.isAck = m'.countP Msg.isAck) :
    Dir a b' m m'' cut := by
  obtain ⟨hle, heq, hstream, hflow, hlast, hsilent, htold, hfull⟩ := hd
  refine ⟨?_, fun _ hb => absurd hb hl, hg, fun hb => absurd hb hl, hlast, hsilent,
    fun hb => absurd hb hl, hfull⟩
  simp only [credit, hl, hm, false_and, if_false] at hle ⊢
  omega

theorem mail_tail {x : Msg α} (hd : Dir a b (x :: m) m' cut) :
    (∀ l r, m = l ++ .bye :: r → r = []) ∧ (a.phase = .linked → cut = false ∧ .bye ∉ m) ∧
      (∀ y, .data y ∈ m → y ≠ []) := by
  refine ⟨?_, ?_, fun y hy => hd.full y (List.mem_cons_of_mem x hy)⟩
  · intro l r h
    exact hd.last (x :: l) r (by rw [h, List.cons_append])
  · intro hp
    exact ⟨(hd.silent hp).1, fun h => (hd.silent hp).2 (List.mem_cons_of_mem x h)⟩

theorem told_tail {x : Msg α} (hd : Dir a b (x :: m) m' cut) (hx : x ≠ .bye) (hb : b.Live)
    (ha : a.Left) (hcut : cut = false) : .bye ∈ m := by
  exact (List.mem_cons.mp (hd.told hb ha hcut)).resolve_left hx.symm

theorem receiver_pops (hd : Dir a b (.ack :: m) m' cut) : Dir a b m m' cut := by
  obtain ⟨hlast, hsilent, hfull⟩ := hd.mail_tail
  have hcredit : credit a b (.ack :: m) m' = credit a b m m' := by
    simp only [credit, List.countP_cons, Msg.isData, Bool.false_eq_true, if_false, Nat.add_zero]
  exact ⟨hcredit ▸ hd.credit_le, hcredit ▸ hd.credit_eq, hd.stream, hd.flow, hlast, hsilent,
    fun hb ha hcut => hd.told_tail (by simp) hb ha hcut, hfull⟩

theorem receiver_drops {x : Msg α} (hd : Dir a b (x :: m) m' cut) (hb : ¬ b.Live) : Dir a b m m' cut := by
  obtain ⟨hlast, hsilent, hfull⟩ := hd.mail_tail
  refine ⟨?_, fun _ h => absurd h hb, hd.stream, fun h => absurd h hb, hlast, hsilent,
    fun h => absurd h hb, hfull⟩
  have hle := hd.credit_le
  simp only [credit, List.countP_cons] at hle ⊢
  omega

/-- A message with items is taken off the mail: they are passed on or wait, and the credit
waits with them or goes back. -/
theorem receiver_takes {x : List α} (hd : Dir a b (.data x :: m) m' cut) (hb : b.Live)
    (hnone : b.backlog = []) (hb' : b'.Live) (hg : b'.given ++ b'.backlog = b.given ++ x)
    (hc : (if b'.backlog ≠ [] then 1 else 0) + m''.countP Msg.isAck = m'.countP Msg.isAck + 1) :
    Dir a b' m m'' cut := by
  obtain ⟨hlast, hsilent, hfull⟩ := hd.mail_tail
  have hcredit : credit a b' m m'' = credit a b (.data x :: m) m' := by
    simp only [credit, hb', hb, hnone, true_and, ne_eq, not_true_eq_false, and_false, if_false,
      List.countP_cons, Msg.isData, if_true]
    simp only [ne_eq] at hc
    omega
  obtain ⟨lost, hlost, hnolost⟩ := hd.flow hb
  have hflow : b'.given ++ b'.backlog ++ m.flatMap Msg.items ++ lost = a.taken := by
    rw [hg, ← hlost, hnone]
    simp [Msg.items]
  refine ⟨hcredit ▸ hd.credit_le, fun ha _ => hcredit ▸ hd.credit_eq ha hb, ?_, ?_, hlast, hsilent,
    fun _ ha hcut => hd.told_tail (by simp) hb ha hcut, hfull⟩
  · rw [← hflow, List.append_assoc]
    exact List.prefix_append _ _
  · exact fun _ => ⟨lost, hflow, hnolost⟩

/-- The receiver has passed on its backlog and returns the credit. -/
theorem return_credit (hd : Dir a b m m' cut) (hb : b.Live) (hsome : b.backlog ≠ []) :
    Dir a { b with given := b.given ++ b.backlog, backlog := [] } m (m' ++ [.ack]) cut := by
  have hcredit : credit a { b with given := b.given ++ b.backlog, backlog := [] } m (m' ++ [.ack]) =
      credit a b m m' := by
    simp only [credit, hb, hsome, ne_eq, not_true_eq_false, and_false, if_false, not_false_eq_true,
      and_self, if_true, List.countP_append, List.countP_singleton, Msg.isAck]
    omega
  obtain ⟨hle, heq, hstream, hflow, hlast, hsilent, htold, hfull⟩ := hd
  refine ⟨hcredit ▸ hle, fun ha _ => hcredit ▸ heq ha hb, ?_, ?_, hlast, hsilent, htold, hfull⟩
  · simpa using hstream
  · intro _
    simpa using hflow hb

/-- A step of the receiver keeps the direction. One case for each step: the receiver either moves
bytes from the messages to what it has given, or takes itself out of the direction for good. -/
theorem of_receiver (hd : Dir a b m m' cut) (hs : b.Step m cutb b' m'' cutb' out) :
    Dir a b' m'' (m' ++ out) cut := by
  have hbye : (m' ++ [Msg.bye]).countP Msg.isAck = m'.countP Msg.isAck := by
    simp [List.countP_append]
  cases hs with
  | write out rest phase split more =>
      rw [List.append_nil]
      refine hd.congr_receiver Iff.rfl ?_ ?_ rfl
      · simp [split]
      · simp [split, more]
  | drain phase some => exact hd.return_credit (Or.inr phase) some
  | finish out rest phase split =>
      rw [List.append_nil]
      refine hd.receiver_left (by simp [End.Live]) ?_ rfl
      refine List.IsPrefix.trans ?_ hd.stream
      simp [split]
  | pass x phase credit some =>
      refine hd.congr_receiver Iff.rfl rfl Iff.rfl ?_
      simp [List.countP_append]
  | waste x phase =>
      rw [List.append_nil]
      exact hd.congr_receiver Iff.rfl rfl Iff.rfl rfl
  | quit phase => exact hd.receiver_left b.quit_left.not_live hd.stream hbye
  | giveUp phase =>
      rw [List.append_nil]
      exact hd.receiver_left (by simp [End.Live]) hd.stream rfl
  | hearAck live =>
      rw [List.append_nil]
      exact hd.receiver_pops.congr_receiver (iff_of_true (Or.inr rfl) live) rfl Iff.rfl rfl
  | hearData x phase none =>
      refine hd.receiver_takes (Or.inr phase) none (Or.inr phase) ?_ ?_
      · simp [none]
      · simp [none, List.countP_append]
  | hearPart out rest phase none more =>
      rw [List.append_nil]
      refine hd.receiver_takes (Or.inr phase) none (Or.inr phase) ?_ ?_
      · simp
      · simp [more, Nat.add_comm]
  | hearFail out rest phase none =>
      have hgiven : b.given ++ out ++ b.backlog <+: a.taken := by
        obtain ⟨lost, hlost, -⟩ := hd.flow (Or.inr phase)
        rw [← hlost]
        simp [none]
      have hdrop : Dir a { b with given := b.given ++ out, phase := .gone, reading := false }
          (.data (out ++ rest) :: m'') (m' ++ [.bye]) cut :=
        hd.receiver_left (by simp [End.Live]) hgiven hbye
      exact hdrop.receiver_drops (by simp [End.Live])
  | hearBye phase =>
      exact (hd.receiver_left b.quit_left.not_live hd.stream hbye).receiver_drops b.quit_left.not_live
  | hearNo phase =>
      rw [List.append_nil]
      have hdrop : Dir a { b with phase := .gone } (.bye :: m'') m' cut :=
        hd.receiver_left (by simp [End.Live]) hd.stream rfl
      exact hdrop.receiver_drops (by simp [End.Live])
  | ignore done =>
      rw [List.append_nil]
      exact hd.receiver_drops done.not_live
  | cutOff phase =>
      rw [List.append_nil]
      exact hd.receiver_left b.quit_left.not_live hd.stream rfl
  | cutIdle phase =>
      rw [List.append_nil]
      exact hd

/-- A message with items finds no backlog: the credit is with the message. -/
theorem backlog_eq_nil {x : List α} (hd : Dir a b (.data x :: m) m' cut) (hb : b.Live) :
    b.backlog = [] := by
  by_contra hsome
  have hle := hd.credit_le
  rw [credit, List.countP_cons_of_pos rfl, if_pos ⟨hb, hsome⟩] at hle
  omega

/-- A direction in which nothing has been sent: there is no credit and no byte, and at least one of
the two ends is not there to use it. -/
theorem of_quiet (hr : a.reading = false) (hp : a.phase ≠ .linked) (ht : a.taken = [])
    (hb : b.given = [] ∧ b.backlog = []) (hdead : ¬ a.Live ∨ ¬ b.Live) (htold : ¬ b.Live ∨ ¬ a.Left)
    (hlast : ∀ l r, m = l ++ .bye :: r → r = []) (hdata : ∀ x ∈ m, x.isData = false)
    (hack : ∀ x ∈ m', x.isAck = false) : Dir a b m m' cut := by
  have hcredit : credit a b m m' = 0 := by
    have h1 : m.countP Msg.isData = 0 := List.countP_eq_zero.mpr fun x hx => by simp [hdata x hx]
    have h2 : m'.countP Msg.isAck = 0 := List.countP_eq_zero.mpr fun x hx => by simp [hack x hx]
    simp [credit, hr, hb.2, h1, h2]
  have hitems : m.flatMap Msg.items = [] := by
    refine List.flatMap_eq_nil_iff.mpr fun x hx => ?_
    cases x with
    | data y => cases hdata _ hx
    | _ => rfl
  refine ⟨by omega, ?_, by simp [hb.1, hb.2], fun _ => ⟨[], by simp [hb.1, hb.2, hitems, ht], by simp⟩,
    hlast, fun h => absurd h hp, ?_, ?_⟩
  · intro ha hb
    exact (hdead.elim (· ha) (· hb)).elim
  · intro hb ha
    exact (htold.elim (· hb) (· ha)).elim
  · intro x hx
    simpa using hdata _ hx

end Dir

/-! ### The stage -/

namespace End.Step

variable {e e' : End α} {inbox inbox' out : List (Msg α)} {cut cut' : Bool}

theorem inbox_cases (h : e.Step inbox cut e' inbox' cut' out) :
    inbox' = inbox ∨ ∃ x, inbox = x :: inbox' := by
  cases h <;> simp

theorem mem_inbox (h : e.Step inbox cut e' inbox' cut' out) {x : Msg α} (hx : x ∈ inbox') :
    x ∈ inbox := by
  rcases h.inbox_cases with rfl | ⟨y, rfl⟩
  · exact hx
  · exact List.mem_cons_of_mem y hx

theorem ask_notMem (h : e.Step inbox cut e' inbox' cut' out) : .ask ∉ out := by
  cases h <;> simp

/-- An end that is not there yet is only cut off. -/
theorem of_absent (h : e.Step inbox cut e' inbox' cut' out) (hp : e.phase = .absent) :
    e' = e ∧ inbox' = inbox ∧ out = [] := by
  cases h <;> simp_all [Live, Left, Over]

theorem phase_ne_absent (h : e.Step inbox cut e' inbox' cut' out) (hp : e.phase ≠ .absent) :
    e'.phase ≠ .absent := by
  cases h <;> simp_all [End.quit] <;> split <;> simp

/-- No step withdraws an end, or brings one back. -/
theorem withdrawn_iff (h : e.Step inbox cut e' inbox' cut' out) :
    e'.phase = .withdrawn ↔ e.phase = .withdrawn := by
  have hquit : e.quit.phase ≠ .withdrawn := e.quit_left.ne_withdrawn
  cases h with
  | hearAck live => rcases live with live | live <;> simp [live]
  | quit phase | hearBye phase | cutOff phase => simp [hquit, phase]
  | _ => simp_all

/-- An end that has not been connected and hears nothing can only be cut off. -/
theorem cut_of_idle (h : e.Step [] cut e' inbox' cut' out) (hlinked : e.phase ≠ .linked)
    (hleaving : e.phase ≠ .leaving) : cut' = true := by
  cases h <;> simp_all

/-- An end that waits after a step waited before it, and has heard nothing. -/
theorem of_asking (h : e.Step inbox cut e' inbox' cut' out) (hp : e'.phase = .asking) :
    e.phase = .asking ∧ inbox' = inbox ∧ out = [] := by
  cases h <;> simp_all [End.quit, Left, Over] <;> split at hp <;> simp at hp

end End.Step

theorem End.Steps.ask_notMem {e e' : End α} {inbox inbox' out : List (Msg α)} {cut cut' : Bool}
    (h : e.Steps inbox cut e' inbox' cut' out) : .ask ∉ out := by
  induction h with
  | refl => simp
  | tail _ step ih =>
      rw [List.mem_append]
      exact fun hmem => hmem.elim ih step.ask_notMem

theorem End.Steps.withdrawn_iff {e e' : End α} {inbox inbox' out : List (Msg α)} {cut cut' : Bool}
    (h : e.Steps inbox cut e' inbox' cut' out) : e'.phase = .withdrawn ↔ e.phase = .withdrawn := by
  induction h with
  | refl => rfl
  | tail _ step ih => exact step.withdrawn_iff.trans ih

namespace Stage

variable {near far e : End α} {toFar toNear inbox out : List (Msg α)} {cut cut' cutf cutf' : Bool}

/-- While the far end is not there, the near end can only give up. -/
theorem before_step (hs : Stage near far toFar toNear cut) (hfar : far.phase = .absent)
    (step : near.Step toNear cut e inbox cut' out) :
    e.phase ≠ .linked ∧ e.phase ≠ .leaving ∧ e.taken = [] ∧ e.given = [] ∧ out = [] ∧
      (inbox = toNear ∨ inbox = []) := by
  obtain ⟨hlinked, hleaving, htaken, hgiven, hmail⟩ := hs.before hfar
  have hnear := hs.near_there
  have hack : ∀ r, toNear ≠ .ack :: r := by
    intro r h
    simp [h] at hmail
  cases step <;> simp_all [End.Live]

theorem near_step (hs : Stage near far toFar toNear cut)
    (step : near.Step toNear cut e inbox cut' out) : Stage e far (toFar ++ out) inbox cut' := by
  refine ⟨step.phase_ne_absent hs.near_there, hs.far_asked, fun h => hs.ask (step.mem_inbox h), ?_,
    ?_, ?_, ?_, ?_⟩
  · intro hfar
    obtain ⟨hlinked, hleaving, htaken, hgiven, rfl, hinbox⟩ := hs.before_step hfar step
    refine ⟨hlinked, hleaving, htaken, hgiven, ?_⟩
    rw [List.append_nil]
    obtain ⟨-, -, -, -, hmail⟩ := hs.before hfar
    rcases hinbox with rfl | rfl
    · exact hmail
    · rcases hmail with ⟨h, -⟩ | ⟨h, -⟩ <;> simp [h]
  · intro hfar hasked
    obtain ⟨-, -, -, -, rfl, -⟩ := hs.before_step hfar step
    rw [List.append_nil] at hasked
    obtain ⟨hlinked, hleaving, -, -, hmail⟩ := hs.before hfar
    obtain rfl : toNear = [] := by simpa [hasked] using hmail
    exact Or.inr (Or.inr (step.cut_of_idle hlinked hleaving))
  · intro hfar h
    rcases List.mem_append.mp h with h | h
    · exact hs.answered hfar h
    · exact step.ask_notMem h
  · intro hp hfar
    obtain ⟨hp, rfl, rfl⟩ := step.of_asking hp
    rw [List.append_nil]
    exact hs.waiting hp hfar
  · intro hp hfar
    have hp := step.withdrawn_iff.mp hp
    rw [step.mute (by simp [hp]), List.append_nil]
    exact hs.untold hp hfar

theorem far_step (hs : Stage near far toFar toNear cut)
    (step : far.Step toFar cutf e inbox cutf' out) : Stage near e inbox (toNear ++ out) cut := by
  by_cases hfar : far.phase = .absent
  · obtain ⟨rfl, rfl, rfl⟩ := step.of_absent hfar
    rwa [List.append_nil]
  · have he := step.phase_ne_absent hfar
    have hempty : toFar = [] → inbox = [] := by
      rintro rfl
      rcases step.inbox_cases with h | ⟨x, h⟩
      · exact h
      · cases h
    refine ⟨hs.near_there, ?_, ?_, fun h => absurd h he, fun h => absurd h he,
      fun _ h => hs.answered hfar (step.mem_inbox h), ?_, fun hp _ => hempty (hs.untold hp hfar)⟩
    · exact ⟨fun hp => hs.far_asked.1 (step.of_asking hp).1,
        fun hp => hs.far_asked.2 (step.withdrawn_iff.mp hp)⟩
    · intro h
      rcases List.mem_append.mp h with h | h
      · exact hs.ask h
      · exact step.ask_notMem h
    · intro hp _
      obtain ⟨hnone, r, rfl⟩ := hs.waiting hp hfar
      exact ⟨hempty hnone, r ++ out, rfl⟩

/-- The question is the only thing on the way. -/
theorem asked (hs : Stage near far toFar toNear cut) (hfar : far.phase = .absent)
    (h : toFar = .ask :: inbox) : inbox = [] ∧ toNear = [] := by
  obtain ⟨-, -, -, -, hmail⟩ := hs.before hfar
  subst h
  simpa using hmail

/-- An end that waits has said nothing but its question. -/
theorem unheard (hs : Stage near far toFar toNear cut) (hp : near.phase = .asking) :
    .bye ∉ toFar ∧ ∀ r, toNear = .bye :: r → ¬ far.Live := by
  by_cases hfar : far.phase = .absent
  · obtain ⟨-, -, -, -, hmail⟩ := hs.before hfar
    refine ⟨?_, fun r _ hlive => ?_⟩
    · rcases hmail with ⟨h, -⟩ | ⟨h, -⟩ <;> simp [h]
    · rcases hlive with h | h <;> simp [h] at hfar
  · obtain ⟨rfl, r, rfl⟩ := hs.waiting hp hfar
    simp

end Stage

namespace Conn

variable {c c' : Conn α}

theorem inv_initial (h : c.Initial) : c.Inv := by
  obtain ⟨near, far, toFar, toNear, cutNear, cutFar⟩ := c
  obtain ⟨hnear, rfl, hask, rfl⟩ := h
  obtain ⟨phase, hphase, rfl⟩ : ∃ phase, (phase = .asking ∨ phase = .withdrawn) ∧ near = .blank phase :=
    hnear.elim (fun h => ⟨_, Or.inl rfl, h⟩) fun h => ⟨_, Or.inr rfl, h⟩
  have hidle : phase ≠ .absent ∧ phase ≠ .linked ∧ phase ≠ .leaving := by
    rcases hphase with rfl | rfl <;> simp
  refine ⟨by constructor <;> simp [End.blank, hidle], by constructor <;> simp [End.blank], ?_, ?_, ?_⟩
  · constructor <;> simp [End.blank, hask, hidle]
    exact fun _ => hphase.imp_right Or.inl
  · rcases hask with rfl | rfl <;>
      exact Dir.of_quiet rfl (by simp [End.blank, hidle]) rfl ⟨rfl, rfl⟩ (by simp [End.blank, End.Live])
        (by simp [End.blank, End.Live]) (Dir.last_of_notMem (by simp)) (by simp) (by simp)
  · rcases hask with rfl | rfl <;>
      exact Dir.of_quiet rfl (by simp [End.blank]) rfl ⟨rfl, rfl⟩ (by simp [End.blank, End.Live])
        (by simp [End.blank, End.Left]) (by simp) (by simp) (by simp)

/-- While the far end is not there, neither end has anything. -/
theorem Inv.before (h : c.Inv) (hp : c.far.phase = .absent) :
    (c.near.reading = false ∧ c.near.backlog = []) ∧ c.far.reading = false ∧ c.far.backlog = [] := by
  obtain ⟨hlinked, hleaving, -⟩ := h.stage.before hp
  have key : ∀ e : End α, e.Ok → e.phase ≠ .linked → e.phase ≠ .leaving →
      e.reading = false ∧ e.backlog = [] := by
    intro e ok hlinked hleaving
    constructor
    · cases hr : e.reading with
      | false => rfl
      | true => exact absurd (ok.reading hr) hlinked
    · by_contra hb
      exact (ok.backlog hb).elim hlinked hleaving
  exact ⟨key _ h.near_ok hlinked hleaving, key _ h.far_ok (by simp [hp]) (by simp [hp])⟩

theorem Inv.serve (h : c.Inv) (hp : c.far.phase = .absent) (hcut : c.cutFar = false)
    {inbox : List (Msg α)} (hasked : c.toFar = .ask :: inbox) :
    Inv { c with
      far := { c.far with phase := .linked, reading := true }
      toFar := inbox
      toNear := c.toNear ++ [.ack] } := by
  obtain ⟨rfl, hnear⟩ := h.stage.asked hp hasked
  obtain ⟨hlinked, hleaving, htaken, hgiven, -⟩ := h.stage.before hp
  have hthere := h.stage.near_there
  have hwaits : c.near.phase = .gone → c.cutNear = true := fun hgone =>
    ((h.stage.open_question hp hasked).resolve_left (by simp [hgone])).resolve_left (by simp [hgone])
  obtain ⟨⟨hread, hback⟩, -, hfback⟩ := h.before hp
  obtain ⟨hftaken, hfgiven⟩ := h.far_ok.early (Or.inr hp)
  refine ⟨h.near_ok, ?_, ?_, ?_, ?_⟩
  · constructor <;> simp [hfback]
  · constructor <;> simp_all
  · constructor <;> simp_all [credit, End.Live, End.Left]
  · refine ⟨?_, ?_, ?_, ?_, Dir.last_of_notMem (by simp [hnear]), ?_, ?_, ?_⟩ <;>
      simp_all [credit, End.Live, End.Left]

theorem Inv.refuse (h : c.Inv) (hp : c.far.phase = .absent) {inbox : List (Msg α)}
    (hasked : c.toFar = .ask :: inbox) :
    Inv { c with toFar := inbox, toNear := c.toNear ++ [.bye] } := by
  obtain ⟨rfl, hnear⟩ := h.stage.asked hp hasked
  obtain ⟨hlinked, hleaving, htaken, hgiven, -⟩ := h.stage.before hp
  obtain ⟨⟨hread, hback⟩, hfread, hfback⟩ := h.before hp
  obtain ⟨hftaken, hfgiven⟩ := h.far_ok.early (Or.inr hp)
  have hfar : ¬ c.far.Live ∧ ¬ c.far.Left := by simp [End.Live, End.Left, hp]
  refine ⟨h.near_ok, h.far_ok, ?_, ?_, ?_⟩
  · exact ⟨h.stage.near_there, h.stage.far_asked, by simp [hnear], by simp_all, by simp, by simp,
      fun _ h => absurd hp h, fun _ _ => rfl⟩
  · exact Dir.of_quiet hread hlinked htaken ⟨hfgiven, hfback⟩ (Or.inr hfar.1) (Or.inl hfar.1) (by simp)
      (by simp) (by simp [hnear])
  · refine Dir.of_quiet hfread (by simp [hp]) hftaken ⟨hgiven, hback⟩ (Or.inl hfar.1) (Or.inr hfar.2) ?_
      (by simp [hnear]) (by simp)
    rw [hnear]
    exact fun l r => Dir.eq_nil_of_last (by simp)

theorem Inv.step (h : c.Inv) (hs : c.Step c') : c'.Inv := by
  cases hs with
  | near step =>
      exact ⟨h.near_ok.step step, h.far_ok, h.stage.near_step step,
        h.out.of_sender step h.stage.unheard, h.back.of_receiver step⟩
  | far step =>
      exact ⟨h.near_ok, h.far_ok.step step, h.stage.far_step step, h.out.of_receiver step,
        h.back.of_sender step fun hp => absurd hp h.stage.far_asked.1⟩
  | serve phase cut asked => exact h.serve phase cut asked
  | refuse phase cut asked => exact h.refuse phase asked

/-- What comes to the near end is what it expects: no request, no data before the link is confirmed,
and no data while the last is not written. -/
theorem Inv.near_expects (h : c.Inv) {m : Msg α} {inbox : List (Msg α)} (hm : c.toNear = m :: inbox) :
    c.near.Expects m := by
  have hask : m ≠ .ask := fun heq => h.stage.ask (by rw [hm, heq]; exact List.mem_cons_self)
  refine ⟨hask, ?_, ?_⟩
  · intro hp x heq
    by_cases hfar : c.far.phase = .absent
    · obtain ⟨-, -, -, -, hmail⟩ := h.stage.before hfar
      simp [hm, heq] at hmail
    · obtain ⟨-, r, hr⟩ := h.stage.waiting hp hfar
      simp [hm, heq] at hr
  · intro hp x heq
    have hback := h.back
    rw [hm, heq] at hback
    exact hback.backlog_eq_nil (Or.inr hp)

theorem Inv.far_expects (h : c.Inv) {m : Msg α} {inbox : List (Msg α)} (hm : c.toFar = m :: inbox)
    (hfar : c.far.phase ≠ .absent) : c.far.Expects m := by
  have hask : m ≠ .ask := fun heq => h.stage.answered hfar (by rw [hm, heq]; exact List.mem_cons_self)
  refine ⟨hask, fun hp => absurd hp h.stage.far_asked.1, ?_⟩
  intro hp x heq
  have hout := h.out
  rw [hm, heq] at hout
  exact hout.backlog_eq_nil (Or.inr hp)

theorem near_steps {e : End α} {inbox out : List (Msg α)} {cut : Bool}
    (hs : End.Steps c.near c.toNear c.cutNear e inbox cut out) :
    Relation.ReflTransGen Step c
      { c with near := e, toNear := inbox, cutNear := cut, toFar := c.toFar ++ out } := by
  induction hs with
  | refl => rw [List.append_nil]
  | @tail e e' inbox inbox' out out' cut cut' _ step ih =>
      rw [← List.append_assoc]
      exact ih.tail (Step.near
        (c := { c with near := e, toNear := inbox, cutNear := cut, toFar := c.toFar ++ out }) step)

theorem far_steps {e : End α} {inbox out : List (Msg α)} {cut : Bool}
    (hs : End.Steps c.far c.toFar c.cutFar e inbox cut out) :
    Relation.ReflTransGen Step c
      { c with far := e, toFar := inbox, cutFar := cut, toNear := c.toNear ++ out } := by
  induction hs with
  | refl => rw [List.append_nil]
  | @tail e e' inbox inbox' out out' cut cut' _ step ih =>
      rw [← List.append_assoc]
      exact ih.tail (Step.far
        (c := { c with far := e, toFar := inbox, cutFar := cut, toNear := c.toNear ++ out }) step)

theorem Reachable.trans (h : c.Reachable) (hrun : Relation.ReflTransGen Step c c') : c'.Reachable := by
  obtain ⟨c₀, h₀, hrun₀⟩ := h
  exact ⟨c₀, h₀, hrun₀.trans hrun⟩

/-- **The invariant of a connection.** -/
theorem Reachable.inv (h : c.Reachable) : c.Inv := by
  obtain ⟨c₀, h₀, hrun⟩ := h
  induction hrun with
  | refl => exact inv_initial h₀
  | tail _ hstep ih => exact ih.step hstep

end Conn

end BlogStuff.Link
