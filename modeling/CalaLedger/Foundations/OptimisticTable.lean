import CalaLedger.Foundations.VersionedTable
import Mathlib.Data.List.Forall2

/-! # Optimistic writers of a versioned table

A session reads the last version of a key, computes the versions that follow it and inserts them
later, under the unique constraint; other sessions may have committed meanwhile. `Spells` says what
the rows of such a session are: a run over the last version of what was committed when it read. When
none of its rows clashes with a committed version, nothing was committed to the key since
(`Spells.rows_eq`), so the session reads the newest version, and its commit is the run of one more
list of events (`Spells.commit`): no version is lost, whatever the sessions locked.

`Inserts` says what an insert into such a table does, and what several of them do in turn. -/

namespace Foundations

namespace VersionedTable

variable {κ σ ε : Type*} {version : σ → ℕ}

/-! ## Runs from the versions of a history -/

theorem getLast?_run (next : Option σ → ε → σ) (base : Option σ) (events : List ε) :
    (run next base events).getLast?.or base = runLast next base events := by
  cases events with
  | nil => rfl
  | cons e events =>
      rw [run_getLast? next base (List.cons_ne_nil e events)]
      have hsome : ∀ (events : List ε) (value : σ),
          ∃ value', runLast next (some value) events = some value' := by
        intro events
        induction events with
        | nil => exact fun value => ⟨value, rfl⟩
        | cons e events ih => exact fun value => ih _
      obtain ⟨value, hvalue⟩ := hsome events (next base e)
      rw [runLast_cons, hvalue]
      rfl

/-- The last version of a history and a run over it is the one the run leaves. -/
theorem getLast?_append_run (next : Option σ → ε → σ) (history : List σ) (events : List ε) :
    (history ++ run next history.getLast? events).getLast?
      = runLast next history.getLast? events := by
  rw [List.getLast?_append, getLast?_run]

/-- A run from nothing, continued, is a run from nothing. -/
theorem run_continued (next : Option σ → ε → σ) (front back : List ε) :
    run next none (front ++ back)
      = run next none front ++ run next (run next none front).getLast? back := by
  have hlast := getLast?_run next none front
  rw [Option.or_none] at hlast
  rw [run_append, hlast]

/-- The versions of a continued run are as they should be when those of both parts are. -/
theorem forall₂_run_append {ok : ε → σ → Prop} {next : Option σ → ε → σ} {front back : List ε} :
    List.Forall₂ ok (front ++ back) (run next none (front ++ back))
      ↔ List.Forall₂ ok front (run next none front)
        ∧ List.Forall₂ ok back (run next (run next none front).getLast? back) := by
  rw [run_continued]
  constructor
  · intro h
    have hfront := List.forall₂_take_append _ _ _ h
    have hback := List.forall₂_drop_append _ _ _ h
    rw [run_length] at hfront hback
    rw [List.take_left] at hfront
    rw [List.drop_left] at hback
    exact ⟨hfront, hback⟩
  · exact fun h => List.rel_append h.1 h.2

/-! ## The rows of a session on one key -/

section Spells

/-- The rows are a run over the last version of an earlier history, every one as it should be. -/
def Spells (next : Option σ → ε → σ) (ok : ε → σ → Prop) (history rows : List σ)
    (events : List ε) : Prop :=
  ∃ earlier, earlier <+: history ∧ rows = run next earlier.getLast? events
    ∧ List.Forall₂ ok events rows

/-- No row has the version of a committed one. -/
def Apart (version : σ → ℕ) (history rows : List σ) : Prop :=
  ∀ s ∈ history, ∀ s' ∈ rows, version s ≠ version s'

/-- The session has read `base`: whatever it computes from it goes on from its rows. -/
def Saw (next : Option σ → ε → σ) (ok : ε → σ → Prop) (history rows : List σ) (events : List ε)
    (base : Option σ) : Prop :=
  ∀ more, List.Forall₂ ok more (run next base more) →
    Spells next ok history (rows ++ run next base more) (events ++ more)

variable {next : κ → Option σ → ε → σ} {k : κ} {ok : ε → σ → Prop}
  {history history' rows : List σ} {events : List ε} {base : Option σ}

theorem Spells.nil (next : Option σ → ε → σ) (ok : ε → σ → Prop) (history : List σ) :
    Spells next ok history [] [] :=
  ⟨[], List.nil_prefix, rfl, List.Forall₂.nil⟩

/-- Other sessions only add to the history. -/
theorem Spells.grow (h : Spells (next k) ok history rows events) (hgrow : history <+: history') :
    Spells (next k) ok history' rows events := by
  obtain ⟨earlier, hearlier, hrows⟩ := h
  exact ⟨earlier, hearlier.trans hgrow, hrows⟩

theorem Saw.grow (h : Saw (next k) ok history rows events base) (hgrow : history <+: history') :
    Saw (next k) ok history' rows events base :=
  fun more hok => (h more hok).grow hgrow

/-- **Rows that do not clash go on from the last version**: had another session committed a version
since they were computed, the first of them would have its number. -/
theorem Spells.rows_eq (h : Spells (next k) ok history rows events)
    (hnext : CountsEvents version next) (hcounts : Counts version 0 history)
    (hapart : Apart version history rows) :
    rows = run (next k) history.getLast? events := by
  obtain ⟨earlier, ⟨later, rfl⟩, rfl, -⟩ := h
  rw [counts_append, Nat.zero_add] at hcounts
  cases events with
  | nil => rfl
  | cons e rest =>
      cases later with
      | nil => rw [List.append_nil]
      | cons s later =>
          -- the next committed version is the first of the rows
          have hs : version s = earlier.length + 1 := (List.cons.inj hcounts.2).1
          have hfirst : version (next k earlier.getLast? e) = earlier.length + 1 := by
            cases hlast : earlier.getLast? with
            | none => rw [hnext.first, List.getLast?_eq_none_iff.mp hlast, List.length_nil]
            | some last => rw [hnext.later, hcounts.1.getLast? hlast, Nat.zero_add]
          exact absurd (hs.trans hfirst.symm)
            (hapart s (List.mem_append_right _ List.mem_cons_self) _ List.mem_cons_self)

/-- They count on from the history. -/
theorem Spells.counts (h : Spells (next k) ok history rows events)
    (hnext : CountsEvents version next) (hcounts : Counts version 0 history)
    (hapart : Apart version history rows) : Counts version history.length rows := by
  have hcounted : Counts version ((history.getLast?.map version).getD 0)
      (run (next k) history.getLast? events) := counts_run (hnext.first k) (hnext.later k) events
  rw [← h.rows_eq hnext hcounts hapart] at hcounted
  cases hlast : history.getLast? with
  | none =>
      rw [hlast] at hcounted
      rw [List.getLast?_eq_none_iff.mp hlast]
      exact hcounted
  | some last =>
      rw [hlast, Option.map_some, Option.getD_some, hcounts.getLast? hlast,
        Nat.zero_add] at hcounted
      exact hcounted

/-- **The read**: the last version the session sees is one its rows go on from. -/
theorem Spells.saw (h : Spells (next k) ok history rows events)
    (hnext : CountsEvents version next) (hcounts : Counts version 0 history)
    (hapart : Apart version history rows) :
    Saw (next k) ok history rows events (history ++ rows).getLast? := by
  intro more hmore
  have hrows := h.rows_eq hnext hcounts hapart
  obtain ⟨-, -, -, hok⟩ := h
  refine ⟨history, List.prefix_rfl, ?_, List.rel_append hok hmore⟩
  nth_rewrite 1 [hrows]
  rw [hrows, getLast?_append_run, run_append]

/-- **The commit**: the history is a run of all events, those of the session last. -/
theorem Spells.commit (h : Spells (next k) ok history rows events)
    (hnext : CountsEvents version next) (hcounts : Counts version 0 history)
    (hapart : Apart version history rows) {past : List ε}
    (hpast : history = run (next k) none past) (hok : List.Forall₂ ok past history) :
    history ++ rows = run (next k) none (past ++ events)
      ∧ List.Forall₂ ok (past ++ events) (history ++ rows) := by
  have hrows := h.rows_eq hnext hcounts hapart
  obtain ⟨-, -, -, hok'⟩ := h
  refine ⟨?_, List.rel_append hok hok'⟩
  rw [run_continued, ← hpast, ← hrows]

end Spells

/-! ## Inserts -/

section Inserts

variable [DecidableEq κ]

/-- An insert appends its rows to the histories of their keys under the unique constraint, and keeps
the current rows of a table whose versions they count on. -/
structure Inserts (version : σ → ℕ)
    (insert : VersionedTable κ σ → List (κ × σ) → Option (VersionedTable κ σ)) : Prop where
  appends : ∀ {t t' : VersionedTable κ σ} {rows : List (κ × σ)}, insert t rows = some t' → ∀ k,
    t'.history k = t.history k ++ rowsOf rows k ∧ Apart version (t.history k) (rowsOf rows k)
  mirrors : ∀ {t t' : VersionedTable κ σ} {rows : List (κ × σ)}, insert t rows = some t' →
    Mirrors version t → Continues version t rows → Mirrors version t'

variable {insert : VersionedTable κ σ → List (κ × σ) → Option (VersionedTable κ σ)}

/-- Several inserts append what they insert. -/
theorem Inserts.foldlM_appends (h : Inserts version insert) (batches : List (List (κ × σ))) :
    ∀ {t t' : VersionedTable κ σ}, batches.foldlM insert t = some t' → ∀ k,
      t'.history k = t.history k ++ rowsOf batches.flatten k
        ∧ Apart version (t.history k) (rowsOf batches.flatten k) := by
  induction batches with
  | nil =>
      rintro t _ ⟨⟩ k
      exact ⟨(List.append_nil _).symm, fun _ _ _ hnone => (List.not_mem_nil hnone).elim⟩
  | cons rows batches ih =>
      intro t t' hrun k
      rw [List.foldlM_cons] at hrun
      obtain ⟨next, hnext, hrest⟩ := Option.bind_eq_some_iff.mp hrun
      obtain ⟨hhistory, hapart⟩ := h.appends hnext k
      obtain ⟨hhistory', hapart'⟩ := ih hrest k
      rw [List.flatten_cons, rowsOf_append]
      refine ⟨by rw [hhistory', hhistory, List.append_assoc], fun s hs s' hs' => ?_⟩
      rcases List.mem_append.mp hs' with hfirst | hlater
      · exact hapart s hs s' hfirst
      · exact hapart' s (hhistory ▸ List.mem_append_left _ hs) s' hlater

/-- Several inserts that count on keep the current rows. -/
theorem Inserts.foldlM_mirrors (h : Inserts version insert) (batches : List (List (κ × σ))) :
    ∀ {t t' : VersionedTable κ σ}, batches.foldlM insert t = some t' → Mirrors version t →
      Continues version t batches.flatten → Mirrors version t' := by
  induction batches with
  | nil =>
      rintro t _ ⟨⟩ hmirrors _
      exact hmirrors
  | cons rows batches ih =>
      intro t t' hrun hmirrors hcontinues
      rw [List.foldlM_cons] at hrun
      obtain ⟨next, hnext, hrest⟩ := Option.bind_eq_some_iff.mp hrun
      rw [List.flatten_cons] at hcontinues
      obtain ⟨hfirst, hlater⟩ := continues_append.mp hcontinues
      refine ih hrest (h.mirrors hnext hmirrors hfirst) (fun k => ?_)
      rw [(h.appends hnext k).1]
      exact hlater k

end Inserts

end VersionedTable

end Foundations
