/-! # Dialogues with a server

A computation that issues statements to a server and goes on with the answers. It ends with a result
of its own, or panics; a statement the server fails ends it as well, and is no result of its own.

A dialogue is `Careful` when it has issued no writing statement at any point where it can still end
with an error of its own. Read-only beginnings and unfailing ends compose to careful dialogues
(`ReadOnly.bind`, `Careful.bind`), and a careful dialogue that returns an error has issued no
statement that writes (`Run.read_only`), whatever other sessions did meanwhile.

What a run leaves is stated by a `Triple`, with a rule for each way to build a dialogue; assertions
are `Stable` under the other sessions. -/

namespace Foundations

/-- A computation over statements. -/
inductive Dialogue (σ : Type) (Answer : σ → Type) (ε α : Type)
  | done (result : Except ε α)
  | panic
  | issue (statement : σ) (next : Answer statement → Dialogue σ Answer ε α)

/-- How a dialogue ends: a statement fails, the computation panics, or it returns. -/
inductive Outcome (ε α : Type)
  | failed
  | panicked
  | returned (result : Except ε α)

/-- The error a dialogue returns. -/
def Outcome.error? {ε α : Type} : Outcome ε α → Option ε
  | failed => none
  | panicked => none
  | returned (.ok _) => none
  | returned (.error e) => some e

theorem Outcome.error?_eq_some {ε α : Type} {outcome : Outcome ε α} {e : ε} :
    outcome.error? = some e ↔ outcome = .returned (.error e) := by
  constructor
  · intro h
    match outcome, h with
    | .returned (.error _), rfl => rfl
  · rintro rfl
    rfl

/-- The result a dialogue returns. -/
def Outcome.result? {ε α : Type} : Outcome ε α → Option α
  | failed => none
  | panicked => none
  | returned (.ok a) => some a
  | returned (.error _) => none

theorem Outcome.result?_eq_some {ε α : Type} {outcome : Outcome ε α} {a : α} :
    outcome.result? = some a ↔ outcome = .returned (.ok a) := by
  constructor
  · intro h
    match outcome, h with
    | .returned (.ok _), rfl => rfl
  · rintro rfl
    rfl

namespace Dialogue

variable {σ : Type} {Answer : σ → Type} {ε α β : Type}

/-- Go on with the result of a dialogue. -/
def bind : Dialogue σ Answer ε α → (α → Dialogue σ Answer ε β) → Dialogue σ Answer ε β
  | done (.ok a), f => f a
  | done (.error e), _ => done (.error e)
  | panic, _ => panic
  | issue statement next, f => issue statement (fun answer => (next answer).bind f)

instance instMonad : Monad (Dialogue σ Answer ε) where
  pure a := done (.ok a)
  bind := bind

theorem bind_assoc {γ : Type} (d : Dialogue σ Answer ε α) (f : α → Dialogue σ Answer ε β)
    (g : β → Dialogue σ Answer ε γ) : (d.bind f).bind g = d.bind (fun a => (f a).bind g) := by
  induction d with
  | done result => cases result <;> rfl
  | panic => rfl
  | issue statement next ih => exact congrArg (issue statement) (funext ih)

/-- Issue one statement. -/
def ask (statement : σ) : Dialogue σ Answer ε (Answer statement) :=
  issue statement (fun answer => done (.ok answer))

/-- Panic where there is no value. -/
def expect : Option α → Dialogue σ Answer ε α
  | some a => done (.ok a)
  | none => panic

/-- One dialogue for each element, one after the other. -/
def forEach (f : β → Dialogue σ Answer ε Unit) : List β → Dialogue σ Answer ε Unit
  | [] => done (.ok ())
  | b :: bs => (f b).bind (fun _ => forEach f bs)

/-- A dialogue for each element, passing a state along. -/
def foldEach (f : α → β → Dialogue σ Answer ε α) : α → List β → Dialogue σ Answer ε α
  | a, [] => done (.ok a)
  | a, b :: bs => (f a b).bind (fun a => foldEach f a bs)

/-- Run a dialogue against a server that answers, or fails, in one way; the statements issued and
the outcome. -/
def runWith {ω : Type} (respond : ω → (statement : σ) → Option (Answer statement × ω)) :
    Dialogue σ Answer ε α → ω → List σ × Outcome ε α × ω
  | done result, world => ([], .returned result, world)
  | panic, world => ([], .panicked, world)
  | issue statement next, world =>
      match respond world statement with
      | none => ([statement], .failed, world)
      | some (answer, world') =>
          let rest := (next answer).runWith respond world'
          (statement :: rest.1, rest.2)

/-! ## Careful dialogues -/

section Careful

variable (writes : σ → Prop)

/-- No statement writes. -/
def ReadOnly : Dialogue σ Answer ε α → Prop
  | done _ => True
  | panic => True
  | issue statement next => ¬ writes statement ∧ ∀ answer, (next answer).ReadOnly

/-- The dialogue never ends with an error of its own. -/
def Unfailing : Dialogue σ Answer ε α → Prop
  | done result => ∃ a, result = .ok a
  | panic => True
  | issue _ next => ∀ answer, (next answer).Unfailing

/-- Behind a statement that writes, the dialogue does not end with an error of its own. -/
def Careful : Dialogue σ Answer ε α → Prop
  | done _ => True
  | panic => True
  | issue statement next =>
      (¬ writes statement ∧ ∀ answer, (next answer).Careful) ∨ ∀ answer, (next answer).Unfailing

variable {writes}

theorem ReadOnly.ask {statement : σ} (h : ¬ writes statement) :
    (Dialogue.ask statement : Dialogue σ Answer ε _).ReadOnly writes :=
  ⟨h, fun _ => trivial⟩

theorem Unfailing.ask (statement : σ) :
    (Dialogue.ask statement : Dialogue σ Answer ε _).Unfailing :=
  fun answer => ⟨answer, rfl⟩

theorem Unfailing.expect (value : Option α) :
    (Dialogue.expect value : Dialogue σ Answer ε α).Unfailing := by
  cases value with
  | none => trivial
  | some a => exact ⟨a, rfl⟩

/-- Fewer statements may count as writing. -/
theorem ReadOnly.mono {reads : σ → Prop} (hreads : ∀ statement, reads statement → writes statement)
    {d : Dialogue σ Answer ε α} (h : d.ReadOnly writes) : d.ReadOnly reads := by
  induction d with
  | done => trivial
  | panic => trivial
  | issue statement next ih =>
      exact ⟨fun hwrites => h.1 (hreads statement hwrites), fun answer => ih answer (h.2 answer)⟩

theorem ReadOnly.expect (value : Option α) :
    (Dialogue.expect value : Dialogue σ Answer ε α).ReadOnly writes := by
  cases value <;> trivial

theorem Unfailing.careful {d : Dialogue σ Answer ε α} (h : d.Unfailing) : d.Careful writes := by
  cases d with
  | done => trivial
  | panic => trivial
  | issue statement next => exact Or.inr h

theorem ReadOnly.bind_readOnly {d : Dialogue σ Answer ε α} {f : α → Dialogue σ Answer ε β}
    (h : d.ReadOnly writes) (hf : ∀ a, (f a).ReadOnly writes) :
    (d.bind f).ReadOnly writes := by
  induction d with
  | done result =>
      cases result with
      | error e => trivial
      | ok a => exact hf a
  | panic => trivial
  | issue statement next ih => exact ⟨h.1, fun answer => ih answer (h.2 answer)⟩

/-- **A read-only beginning** may be followed by anything careful. -/
theorem ReadOnly.bind {d : Dialogue σ Answer ε α} {f : α → Dialogue σ Answer ε β}
    (h : d.ReadOnly writes) (hf : ∀ a, (f a).Careful writes) : (d.bind f).Careful writes := by
  induction d with
  | done result =>
      cases result with
      | error e => trivial
      | ok a => exact hf a
  | panic => trivial
  | issue statement next ih => exact Or.inl ⟨h.1, fun answer => ih answer (h.2 answer)⟩

theorem Unfailing.bind {d : Dialogue σ Answer ε α} {f : α → Dialogue σ Answer ε β}
    (h : d.Unfailing) (hf : ∀ a, (f a).Unfailing) : (d.bind f).Unfailing := by
  induction d with
  | done result =>
      obtain ⟨a, rfl⟩ := h
      exact hf a
  | panic => trivial
  | issue statement next ih => exact fun answer => ih answer (h answer)

/-- **An unfailing end** may follow anything careful. -/
theorem Careful.bind {d : Dialogue σ Answer ε α} {f : α → Dialogue σ Answer ε β}
    (h : d.Careful writes) (hf : ∀ a, (f a).Unfailing) : (d.bind f).Careful writes := by
  induction d with
  | done result =>
      cases result with
      | error e => trivial
      | ok a => exact (hf a).careful
  | panic => trivial
  | issue statement next ih =>
      rcases h with ⟨hread, hnext⟩ | hnext
      · exact Or.inl ⟨hread, fun answer => ih answer (hnext answer)⟩
      · exact Or.inr (fun answer => (hnext answer).bind hf)

theorem Unfailing.forEach {f : β → Dialogue σ Answer ε Unit} (h : ∀ b, (f b).Unfailing)
    (bs : List β) : (Dialogue.forEach f bs).Unfailing := by
  induction bs with
  | nil => exact ⟨(), rfl⟩
  | cons b bs ih => exact (h b).bind (fun _ => ih)

theorem ReadOnly.forEach {f : β → Dialogue σ Answer ε Unit} (h : ∀ b, (f b).ReadOnly writes)
    (bs : List β) : (Dialogue.forEach f bs).ReadOnly writes := by
  induction bs with
  | nil => trivial
  | cons b bs ih => exact (h b).bind_readOnly (fun _ => ih)

theorem ReadOnly.foldEach {f : α → β → Dialogue σ Answer ε α}
    (h : ∀ a b, (f a b).ReadOnly writes) (bs : List β) :
    ∀ a, (Dialogue.foldEach f a bs).ReadOnly writes := by
  induction bs with
  | nil => exact fun _ => trivial
  | cons b bs ih => exact fun a => (h a b).bind_readOnly ih

end Careful

end Dialogue

/-! ## Runs -/

/-- What the statements of one session do to a world `ω`, and what the other sessions may do
between two of them. -/
structure Server (σ : Type) (Answer : σ → Type) (ω : Type) where
  others : ω → ω → Prop
  executes : ω → (statement : σ) → Answer statement → ω → Prop

namespace Server

variable {σ : Type} {Answer : σ → Type} {ω : Type} {ε α : Type}

/-- A run of a dialogue, with the statements it has issued. A statement may fail at any time. -/
inductive Run (server : Server σ Answer ω) :
    ω → Dialogue σ Answer ε α → List σ → Outcome ε α → ω → Prop
  | done (world : ω) (result : Except ε α) :
      Run server world (.done result) [] (.returned result) world
  | panic (world : ω) : Run server world .panic [] .panicked world
  | fail (world : ω) (statement : σ) (next : Answer statement → Dialogue σ Answer ε α) :
      Run server world (.issue statement next) [statement] .failed world
  | issue {world world' world'' : ω} {statement : σ} {answer : Answer statement}
      {next : Answer statement → Dialogue σ Answer ε α} {issued : List σ} {outcome : Outcome ε α} :
      server.executes world statement answer world' →
      Run server world' (next answer) issued outcome world'' →
      Run server world (.issue statement next) (statement :: issued) outcome world''
  | others {world world' world'' : ω} {d : Dialogue σ Answer ε α} {issued : List σ}
      {outcome : Outcome ε α} :
      server.others world world' → Run server world' d issued outcome world'' →
      Run server world d issued outcome world''

variable {server : Server σ Answer ω}

/-- A run against one way to answer is a run. -/
theorem run_runWith {respond : ω → (statement : σ) → Option (Answer statement × ω)}
    (hrespond : ∀ {world statement answer world'}, respond world statement = some (answer, world') →
      server.executes world statement answer world') (d : Dialogue σ Answer ε α) :
    ∀ world, server.Run world d (d.runWith respond world).1 (d.runWith respond world).2.1
      (d.runWith respond world).2.2 := by
  induction d with
  | done result => exact fun world => Run.done world result
  | panic => exact fun world => Run.panic world
  | issue statement next ih =>
      intro world
      rw [Dialogue.runWith]
      cases hanswer : respond world statement with
      | none => exact Run.fail world statement next
      | some found => exact Run.issue (hrespond hanswer) (ih found.1 found.2)

/-- An unfailing dialogue returns no error. -/
theorem Run.ok_of_unfailing {world world' : ω} {d : Dialogue σ Answer ε α} {issued : List σ}
    {outcome : Outcome ε α} (h : server.Run world d issued outcome world') (hd : d.Unfailing)
    (error : ε) : outcome ≠ .returned (.error error) := by
  induction h with
  | done world result =>
      obtain ⟨a, rfl⟩ := hd
      exact nofun
  | panic => exact nofun
  | fail => exact nofun
  | issue _ _ ih => exact ih (hd _)
  | others _ _ ih => exact ih hd

/-- **A careful dialogue that returns an error has issued no statement that writes.** -/
theorem Run.read_only {writes : σ → Prop} {world world' : ω} {d : Dialogue σ Answer ε α}
    {issued : List σ} {outcome : Outcome ε α} (h : server.Run world d issued outcome world')
    (hd : d.Careful writes) {error : ε} (herror : outcome = .returned (.error error)) :
    ∀ statement ∈ issued, ¬ writes statement := by
  induction h with
  | done => exact fun _ h => (List.not_mem_nil h).elim
  | panic => exact fun _ h => (List.not_mem_nil h).elim
  | fail => cases herror
  | issue _ hrun ih =>
      rcases hd with ⟨hread, hnext⟩ | hnext
      · intro statement hmem
        cases hmem with
        | head => exact hread
        | tail _ hmem => exact ih (hnext _) herror statement hmem
      · exact (hrun.ok_of_unfailing (hnext _) error herror).elim
  | others _ _ ih => exact ih hd herror

/-- **What no reading statement and no other session changes** is unchanged by a run without
writing statements. -/
theorem Run.unchanged {τ : Type} (own : ω → τ) {writes : σ → Prop}
    (hothers : ∀ {world world'}, server.others world world' → own world' = own world)
    (hreads : ∀ {world statement answer world'}, ¬ writes statement →
      server.executes world statement answer world' → own world' = own world)
    {world world' : ω} {d : Dialogue σ Answer ε α} {issued : List σ} {outcome : Outcome ε α}
    (h : server.Run world d issued outcome world')
    (hissued : ∀ statement ∈ issued, ¬ writes statement) : own world' = own world := by
  induction h with
  | done => rfl
  | panic => rfl
  | fail => rfl
  | issue hexecutes _ ih =>
      have hnext := ih (fun statement hmem => hissued statement (List.mem_cons_of_mem _ hmem))
      exact hnext.trans (hreads (hissued _ List.mem_cons_self) hexecutes)
  | others hother _ ih => exact (ih hissued).trans (hothers hother)

/-- **What reading statements and other sessions keep**, a run without writing statements keeps. -/
theorem Run.kept {writes : σ → Prop} {invariant : ω → Prop}
    (hothers : ∀ {world world'}, server.others world world' → invariant world → invariant world')
    (hreads : ∀ {world statement answer world'}, ¬ writes statement →
      server.executes world statement answer world' → invariant world → invariant world')
    {world world' : ω} {d : Dialogue σ Answer ε α} {issued : List σ} {outcome : Outcome ε α}
    (h : server.Run world d issued outcome world')
    (hissued : ∀ statement ∈ issued, ¬ writes statement) (hworld : invariant world) :
    invariant world' := by
  induction h with
  | done => exact hworld
  | panic => exact hworld
  | fail => exact hworld
  | issue hexecuted _ ih =>
      refine ih (fun statement hmem => hissued statement (List.mem_cons_of_mem _ hmem)) ?_
      exact hreads (hissued _ List.mem_cons_self) hexecuted hworld
  | others hother _ ih => exact ih hissued (hothers hother hworld)

/-- What every statement and every other session keep, a run keeps. -/
theorem Run.invariant {invariant : ω → Prop}
    (hothers : ∀ {world world'}, server.others world world' → invariant world → invariant world')
    (hexecutes : ∀ {world statement answer world'},
      server.executes world statement answer world' → invariant world → invariant world')
    {world world' : ω} {d : Dialogue σ Answer ε α} {issued : List σ} {outcome : Outcome ε α}
    (h : server.Run world d issued outcome world') (hworld : invariant world) :
    invariant world' := by
  induction h with
  | done => exact hworld
  | panic => exact hworld
  | fail => exact hworld
  | issue hexecuted _ ih => exact ih (hexecutes hexecuted hworld)
  | others hother _ ih => exact ih (hothers hother hworld)

/-! ## Triples -/

/-- No other session changes whether an assertion holds. -/
def Stable (server : Server σ Answer ω) (assertion : ω → Prop) : Prop :=
  ∀ ⦃world world'⦄, server.others world world' → assertion world → assertion world'

/-- What an outcome leaves: `post` of a result, `exit` when there is none. -/
def Leaves (post : α → ω → Prop) (exit : ω → Prop) : Outcome ε α → ω → Prop
  | .failed => exit
  | .panicked => exit
  | .returned (.error _) => exit
  | .returned (.ok a) => post a

/-- Begun where `pre` holds, a run that returns a result leaves `post` of it, and any other run
leaves `exit`. -/
def Triple (server : Server σ Answer ω) (pre : ω → Prop) (d : Dialogue σ Answer ε α)
    (post : α → ω → Prop) (exit : ω → Prop) : Prop :=
  ∀ ⦃world issued outcome world'⦄, server.Run world d issued outcome world' → pre world →
    Leaves post exit outcome world'

section Triple

variable {pre exit : ω → Prop} {post : α → ω → Prop} {β : Type}

theorem Triple.weaken {pre' exit' : ω → Prop} {post' : α → ω → Prop} {d : Dialogue σ Answer ε α}
    (h : server.Triple pre d post exit) (hpre : ∀ world, pre' world → pre world)
    (hpost : ∀ a world, post a world → post' a world)
    (hexit : ∀ world, exit world → exit' world) : server.Triple pre' d post' exit' := by
  intro world issued outcome world' hrun hworld
  have hleaves := h hrun (hpre world hworld)
  match outcome with
  | .failed => exact hexit _ hleaves
  | .panicked => exact hexit _ hleaves
  | .returned (.error _) => exact hexit _ hleaves
  | .returned (.ok a) => exact hpost a _ hleaves

/-- What is shown of a server is true of one that allows less. -/
theorem Triple.restrict {server' : Server σ Answer ω} {d : Dialogue σ Answer ε α}
    (h : server.Triple pre d post exit)
    (hothers : ∀ {world world'}, server'.others world world' → server.others world world')
    (hexecutes : ∀ {world statement answer world'},
      server'.executes world statement answer world' → server.executes world statement answer world') :
    server'.Triple pre d post exit := by
  intro world issued outcome world' hrun hworld
  have hallowed : server.Run world d issued outcome world' := by
    clear h hworld
    induction hrun with
    | done world result => exact Run.done world result
    | panic world => exact Run.panic world
    | fail world statement next => exact Run.fail world statement next
    | issue hexecuted _ ih => exact Run.issue (hexecutes hexecuted) ih
    | others hother _ ih => exact Run.others (hothers hother) ih
  exact h hallowed hworld

/-- What two arguments show of one dialogue. -/
theorem Triple.and {pre' exit' : ω → Prop} {post' : α → ω → Prop} {d : Dialogue σ Answer ε α}
    (h : server.Triple pre d post exit) (h' : server.Triple pre' d post' exit') :
    server.Triple (fun world => pre world ∧ pre' world) d
      (fun a world => post a world ∧ post' a world) (fun world => exit world ∧ exit' world) := by
  intro world issued outcome world' hrun hworld
  have hleaves := h hrun hworld.1
  have hleaves' := h' hrun hworld.2
  match outcome with
  | .failed => exact ⟨hleaves, hleaves'⟩
  | .panicked => exact ⟨hleaves, hleaves'⟩
  | .returned (.error _) => exact ⟨hleaves, hleaves'⟩
  | .returned (.ok a) => exact ⟨hleaves, hleaves'⟩

/-- A fact about what is known already. -/
theorem Triple.of_fact {fact : Prop} {d : Dialogue σ Answer ε α}
    (h : fact → server.Triple pre d post exit) :
    server.Triple (fun world => fact ∧ pre world) d post exit :=
  fun _ _ _ _ hrun hworld => h hworld.1 hrun hworld.2

/-- Whatever is known to exist. -/
theorem Triple.of_exists {ι : Type} {pre : ι → ω → Prop} {d : Dialogue σ Answer ε α}
    (h : ∀ i, server.Triple (pre i) d post exit) :
    server.Triple (fun world => ∃ i, pre i world) d post exit := by
  rintro world issued outcome world' hrun ⟨i, hworld⟩
  exact h i hrun hworld

theorem Triple.ok (hstable : server.Stable pre) (a : α)
    (hpost : ∀ world, pre world → post a world) :
    server.Triple pre (.done (.ok a) : Dialogue σ Answer ε α) post exit := by
  intro world issued outcome world' hrun hworld
  generalize hd : (Dialogue.done (.ok a) : Dialogue σ Answer ε α) = d at hrun
  induction hrun with
  | done world result =>
      cases hd
      exact hpost world hworld
  | others hother _ ih => exact ih (hstable hother hworld) hd
  | _ => cases hd

theorem Triple.error (hstable : server.Stable pre) (error : ε)
    (hexit : ∀ world, pre world → exit world) :
    server.Triple pre (.done (.error error) : Dialogue σ Answer ε α) post exit := by
  intro world issued outcome world' hrun hworld
  generalize hd : (Dialogue.done (.error error) : Dialogue σ Answer ε α) = d at hrun
  induction hrun with
  | done world result =>
      cases hd
      exact hexit world hworld
  | others hother _ ih => exact ih (hstable hother hworld) hd
  | _ => cases hd

/-- What is computed without a statement. -/
theorem Triple.done (hstable : server.Stable pre) {result : Except ε α}
    (hpost : ∀ a, result = .ok a → ∀ world, pre world → post a world)
    (hexit : ∀ world, pre world → exit world) :
    server.Triple pre (.done result : Dialogue σ Answer ε α) post exit := by
  cases result with
  | error error => exact Triple.error hstable error hexit
  | ok a => exact Triple.ok hstable a (hpost a rfl)

theorem Triple.panic (hstable : server.Stable pre) (hexit : ∀ world, pre world → exit world) :
    server.Triple pre (.panic : Dialogue σ Answer ε α) post exit := by
  intro world issued outcome world' hrun hworld
  generalize hd : (Dialogue.panic : Dialogue σ Answer ε α) = d at hrun
  induction hrun with
  | panic world => exact hexit world hworld
  | others hother _ ih => exact ih (hstable hother hworld) hd
  | _ => cases hd

/-- **A statement**, and what follows it. -/
theorem Triple.issue {statement : σ} {next : Answer statement → Dialogue σ Answer ε α}
    {mid : Answer statement → ω → Prop} (hstable : server.Stable pre)
    (hexit : ∀ world, pre world → exit world)
    (hexecutes : ∀ {world answer world'}, server.executes world statement answer world' →
      pre world → mid answer world')
    (hnext : ∀ answer, server.Triple (mid answer) (next answer) post exit) :
    server.Triple pre (.issue statement next) post exit := by
  intro world issued outcome world' hrun hworld
  generalize hd : (Dialogue.issue statement next : Dialogue σ Answer ε α) = d at hrun
  induction hrun with
  | fail world =>
      cases hd
      exact hexit world hworld
  | issue hexecuted hrun _ =>
      cases hd
      exact hnext _ hrun (hexecutes hexecuted hworld)
  | others hother _ ih => exact ih (hstable hother hworld) hd
  | _ => cases hd

theorem Triple.ask {statement : σ} {post : Answer statement → ω → Prop}
    (hstable : server.Stable pre) (hstable' : ∀ answer, server.Stable (post answer))
    (hexit : ∀ world, pre world → exit world)
    (hexecutes : ∀ {world answer world'}, server.executes world statement answer world' →
      pre world → post answer world') :
    server.Triple pre (Dialogue.ask statement : Dialogue σ Answer ε _) post exit :=
  Triple.issue hstable hexit hexecutes
    (fun answer => Triple.ok (hstable' answer) answer (fun _ h => h))

/-- **One dialogue after another.** -/
theorem Triple.bind {d : Dialogue σ Answer ε β} {f : β → Dialogue σ Answer ε α}
    {mid : β → ω → Prop} (h : server.Triple pre d mid exit)
    (hf : ∀ b, server.Triple (mid b) (f b) post exit) : server.Triple pre (d.bind f) post exit := by
  have hgeneral : ∀ {world issued outcome world'} {d' : Dialogue σ Answer ε α},
      server.Run world d' issued outcome world' → ∀ d, d' = d.bind f →
      (∀ {issued outcome world'}, server.Run world d issued outcome world' →
        Leaves mid exit outcome world') →
      Leaves post exit outcome world' := by
    intro world issued outcome world' d' hrun
    -- induction on the run, whose dialogue is at some point of `d`, or beyond it
    induction hrun with
    | done world result =>
        intro d hd hleaves
        match d, hd with
        | .done (.ok b), hd =>
            exact hf b (by rw [← show _ = f b from hd]; exact Run.done world result)
              (hleaves (Run.done world _))
        | .done (.error error), hd =>
            cases hd
            exact hleaves (Run.done world _)
    | panic world =>
        intro d hd hleaves
        match d, hd with
        | .done (.ok b), hd =>
            exact hf b (by rw [← show _ = f b from hd]; exact Run.panic world)
              (hleaves (Run.done world _))
        | .panic, _ => exact hleaves (Run.panic world)
    | fail world statement next =>
        intro d hd hleaves
        match d, hd with
        | .done (.ok b), hd =>
            exact hf b (by rw [← show _ = f b from hd]; exact Run.fail world statement next)
              (hleaves (Run.done world _))
        | .issue statement' next', hd =>
            exact hleaves (Run.fail world statement' next')
    | @issue world world₁ world₂ statement answer next issued outcome hexecutes hrun ih =>
        intro d hd hleaves
        match d, hd with
        | .done (.ok b), hd =>
            exact hf b (by rw [← show _ = f b from hd]; exact Run.issue hexecutes hrun)
              (hleaves (Run.done world _))
        | .issue statement' next', hd =>
            cases hd
            exact ih (next' answer) rfl (fun hrun' => hleaves (Run.issue hexecutes hrun'))
    | others hother _ ih =>
        intro d hd hleaves
        exact ih d hd (fun hrun' => hleaves (Run.others hother hrun'))
  intro world issued outcome world' hrun hworld
  exact hgeneral hrun d rfl (fun hrun' => h hrun' hworld)

/-- **A dialogue that only reads** keeps what reading statements keep. -/
theorem Triple.of_readOnly {writes : σ → Prop} (hstable : server.Stable pre)
    (hreads : ∀ {world statement answer world'}, ¬ writes statement →
      server.executes world statement answer world' → pre world → pre world')
    (hexit : ∀ world, pre world → exit world) {d : Dialogue σ Answer ε α}
    (hd : d.ReadOnly writes) : server.Triple pre d (fun _ => pre) exit := by
  induction d with
  | done result => exact Triple.done hstable (fun _ _ _ h => h) hexit
  | panic => exact Triple.panic hstable hexit
  | issue statement next ih =>
      have hnext : ∀ answer, server.Triple pre (next answer) (fun _ => pre) exit :=
        fun answer => ih answer (hd.2 answer)
      exact Triple.issue hstable hexit (hreads hd.1) hnext

/-- A loop: the invariant is of the elements still to come and the state so far. -/
theorem Triple.foldEach (invariant : List β → α → ω → Prop) {f : α → β → Dialogue σ Answer ε α}
    (hstable : ∀ a, server.Stable (invariant [] a))
    (hstep : ∀ b bs a, server.Triple (invariant (b :: bs) a) (f a b) (invariant bs) exit)
    (bs : List β) :
    ∀ a, server.Triple (invariant bs a) (Dialogue.foldEach f a bs) (invariant []) exit := by
  induction bs with
  | nil => exact fun a => Triple.ok (hstable a) a (fun _ h => h)
  | cons b bs ih => exact fun a => (hstep b bs a).bind ih

theorem Triple.forEach (invariant : List β → ω → Prop) {f : β → Dialogue σ Answer ε Unit}
    (hstable : server.Stable (invariant []))
    (hstep : ∀ b bs, server.Triple (invariant (b :: bs)) (f b) (fun _ => invariant bs) exit)
    (bs : List β) :
    server.Triple (invariant bs) (Dialogue.forEach f bs) (fun _ => invariant []) exit := by
  induction bs with
  | nil => exact Triple.ok hstable () (fun _ h => h)
  | cons b bs ih => exact (hstep b bs).bind (fun _ => ih)

theorem Triple.expect (hstable : server.Stable pre) (hexit : ∀ world, pre world → exit world)
    (value : Option α) (hpost : ∀ a, value = some a → ∀ world, pre world → post a world) :
    server.Triple pre (Dialogue.expect value : Dialogue σ Answer ε α) post exit := by
  cases value with
  | none => exact Triple.panic hstable hexit
  | some a => exact Triple.ok hstable a (hpost a rfl)

end Triple

end Server

end Foundations
