import CalaLedger.Foundations.HashMap
import CalaLedger.Foundations.StableSort

/-! # Versioned tables

A table that keeps every version of a value in a history and mirrors the newest one in a current
row. `Mirrors` is its invariant: the history of a key counts its versions from one, and the current
row is the last of them. `extend` adds rows the way a writer is meant to, and rows that continue the
versions of their keys keep the invariant (`Mirrors.extend`) and may be added in chunks
(`extend_append`). `advance` is the view from the outside: events run over the values of their keys,
in one batch or in several (`advance_append`). -/

namespace Foundations

variable {κ σ : Type*} [DecidableEq κ]

/-- Histories and current rows; a current row carries its version beside its value. -/
structure VersionedTable (κ σ : Type*) where
  history : κ → List σ
  current : κ → Option (ℕ × σ)

/-- The rows of one key, in order. -/
def rowsOf (rows : List (κ × σ)) (k : κ) : List σ :=
  (rows.filter (fun row => row.1 = k)).map Prod.snd

theorem rowsOf_append (front back : List (κ × σ)) (k : κ) :
    rowsOf (front ++ back) k = rowsOf front k ++ rowsOf back k := by
  rw [rowsOf, List.filter_append, List.map_append]
  rfl

@[simp] theorem rowsOf_nil (k : κ) : rowsOf ([] : List (κ × σ)) k = [] := rfl

theorem mem_rowsOf {rows : List (κ × σ)} {k : κ} {s : σ} : s ∈ rowsOf rows k ↔ (k, s) ∈ rows := by
  rw [rowsOf, List.mem_map]
  constructor
  · rintro ⟨⟨k', s'⟩, hmem, rfl⟩
    obtain ⟨hmem, hk⟩ := List.mem_filter.mp hmem
    rw [decide_eq_true_eq] at hk
    exact hk ▸ hmem
  · intro hmem
    exact ⟨(k, s), List.mem_filter.mpr ⟨hmem, by simp⟩, rfl⟩

namespace VersionedTable

/-- The versions of a list count up from after `base`. -/
def Counts (version : σ → ℕ) (base : ℕ) (rows : List σ) : Prop :=
  rows.map version = List.range' (base + 1) rows.length

section Counts

variable {version : σ → ℕ} {base : ℕ}

theorem counts_nil : Counts version base [] := rfl

theorem counts_append {front back : List σ} :
    Counts version base (front ++ back)
      ↔ Counts version base front ∧ Counts version (base + front.length) back := by
  unfold Counts
  rw [List.map_append, List.length_append, ← List.range'_append_1]
  have hlength : (front.map version).length = (List.range' (base + 1) front.length).length := by
    simp
  rw [Nat.add_right_comm base 1]
  constructor
  · exact fun h => List.append_inj h hlength
  · rintro ⟨hfront, hback⟩
    rw [hfront, hback]

/-- Counted versions are strictly increasing. -/
theorem Counts.strict {rows : List σ} (h : Counts version base rows) :
    rows.Pairwise (fun a b => version a < version b) := by
  rw [← List.pairwise_map (f := version), h]
  exact List.pairwise_lt_range'

theorem Counts.bounds {rows : List σ} (h : Counts version base rows) {s : σ} (hs : s ∈ rows) :
    base < version s ∧ version s ≤ base + rows.length := by
  have hmem : version s ∈ List.range' (base + 1) rows.length := by
    rw [← h]
    exact List.mem_map_of_mem hs
  rw [List.mem_range'_1] at hmem
  omega

theorem Counts.getLast? {rows : List σ} (h : Counts version base rows) {s : σ}
    (hs : rows.getLast? = some s) : version s = base + rows.length := by
  obtain ⟨front, rfl⟩ := List.getLast?_eq_some_iff.mp hs
  have hlast := (counts_append.mp h).2
  have hone : [version s] = [base + front.length + 1] := hlast
  rw [List.length_append, List.length_singleton, (List.cons.inj hone).1]
  omega

end Counts

variable (version : σ → ℕ)

/-- The current row of a key mirrors the last version of its history. -/
def latest (rows : List σ) : Option (ℕ × σ) :=
  rows.getLast?.map (fun s => (version s, s))

/-- **The invariant of the tables**: versions count from one, and the current row is the last. -/
structure Mirrors (t : VersionedTable κ σ) : Prop where
  counts : ∀ k, Counts version 0 (t.history k)
  current : ∀ k, t.current k = latest version (t.history k)

/-- Rows whose versions go on from the histories of their keys. -/
def Continues (t : VersionedTable κ σ) (rows : List (κ × σ)) : Prop :=
  ∀ k, Counts version (t.history k).length (rowsOf rows k)

/-- Add rows to the histories of their keys and mirror the last of each. -/
def extend (t : VersionedTable κ σ) (rows : List (κ × σ)) : VersionedTable κ σ :=
  { history := fun k => t.history k ++ rowsOf rows k
    current := fun k => if rowsOf rows k = [] then t.current k else latest version (rowsOf rows k) }

variable {version} {t : VersionedTable κ σ}

theorem Mirrors.extend (h : Mirrors version t) {rows : List (κ × σ)}
    (hrows : Continues version t rows) : Mirrors version (t.extend version rows) := by
  constructor
  · intro k
    refine counts_append.mpr ⟨h.counts k, ?_⟩
    rw [Nat.zero_add]
    exact hrows k
  · intro k
    change (if rowsOf rows k = [] then t.current k else latest version (rowsOf rows k))
      = latest version (t.history k ++ rowsOf rows k)
    by_cases hnil : rowsOf rows k = []
    · rw [if_pos hnil, hnil, List.append_nil, h.current]
    · rw [if_neg hnil, latest, latest, List.getLast?_append_of_ne_nil _ hnil]

@[simp] theorem extend_nil (t : VersionedTable κ σ) : t.extend version [] = t := by
  cases t
  simp [extend]

/-- **Chunks compose.** -/
theorem extend_append (t : VersionedTable κ σ) (front back : List (κ × σ)) :
    t.extend version (front ++ back) = (t.extend version front).extend version back := by
  unfold extend
  congr 1
  · funext k
    rw [rowsOf_append, List.append_assoc]
  · funext k
    rw [rowsOf_append]
    by_cases hback : rowsOf back k = []
    · simp [hback]
    · rw [if_neg (by simp [hback]), if_neg hback, latest, latest,
        List.getLast?_append_of_ne_nil _ hback]

theorem continues_append {front back : List (κ × σ)} :
    Continues version t (front ++ back)
      ↔ Continues version t front ∧ Continues version (t.extend version front) back := by
  have hone : ∀ k, Counts version (t.history k).length (rowsOf (front ++ back) k)
      ↔ Counts version (t.history k).length (rowsOf front k)
        ∧ Counts version ((t.extend version front).history k).length (rowsOf back k) := by
    intro k
    rw [rowsOf_append, counts_append]
    change _ ↔ _ ∧ Counts version (t.history k ++ rowsOf front k).length (rowsOf back k)
    rw [List.length_append]
  constructor
  · intro h
    exact ⟨fun k => ((hone k).mp (h k)).1, fun k => ((hone k).mp (h k)).2⟩
  · rintro ⟨hfront, hback⟩ k
    exact (hone k).mpr ⟨hfront k, hback k⟩

omit [DecidableEq κ] in
/-- The version of the current row is the length of the history. -/
theorem Mirrors.current_version (h : Mirrors version t) {k : κ} {row : ℕ × σ}
    (hrow : t.current k = some row) :
    row.1 = (t.history k).length ∧ version row.2 = row.1 := by
  rw [h.current, latest, Option.map_eq_some_iff] at hrow
  obtain ⟨s, hs, rfl⟩ := hrow
  exact ⟨by simpa using (h.counts k).getLast? hs, rfl⟩

omit [DecidableEq κ] in
/-- The value of the current row is the last of the history. -/
theorem Mirrors.value_eq (h : Mirrors version t) (k : κ) :
    (t.current k).map Prod.snd = (t.history k).getLast? := by
  rw [h.current, latest, Option.map_map]
  exact congrFun Option.map_id _

omit [DecidableEq κ] in
/-- The histories of a table determine its current rows. -/
theorem Mirrors.eq_of_history {t' : VersionedTable κ σ} (h : Mirrors version t)
    (h' : Mirrors version t') (hhistory : ∀ k, t.history k = t'.history k) : t = t' := by
  have hsame : t.history = t'.history := funext hhistory
  have hcurrent : t.current = t'.current := by
    funext k
    rw [h.current, h'.current, hhistory]
  cases t
  cases t'
  cases hsame
  cases hcurrent
  rfl

omit [DecidableEq κ] in
theorem Mirrors.current_eq_none (h : Mirrors version t) {k : κ} :
    t.current k = none ↔ t.history k = [] := by
  rw [h.current, latest, Option.map_eq_none_iff, List.getLast?_eq_none_iff]

/-! ## Running events over a table -/

section Advance

variable {ε : Type*} {next : κ → Option σ → ε → σ}

omit [DecidableEq κ] in
/-- The values a list of events leaves on one key, oldest first. -/
def run (next : Option σ → ε → σ) : Option σ → List ε → List σ
  | _, [] => []
  | base, e :: events => next base e :: run next (some (next base e)) events

/-- The value a list of events leaves behind. -/
def runLast (next : Option σ → ε → σ) (base : Option σ) (events : List ε) : Option σ :=
  events.foldl (fun value e => some (next value e)) base

@[simp] theorem run_nil (next : Option σ → ε → σ) (base : Option σ) : run next base [] = [] := rfl

@[simp] theorem runLast_nil (next : Option σ → ε → σ) (base : Option σ) :
    runLast next base [] = base := rfl

theorem run_cons (next : Option σ → ε → σ) (base : Option σ) (e : ε) (events : List ε) :
    run next base (e :: events) = next base e :: run next (some (next base e)) events := rfl

theorem runLast_cons (next : Option σ → ε → σ) (base : Option σ) (e : ε) (events : List ε) :
    runLast next base (e :: events) = runLast next (some (next base e)) events := rfl

theorem runLast_append (next : Option σ → ε → σ) (base : Option σ) (front back : List ε) :
    runLast next base (front ++ back) = runLast next (runLast next base front) back :=
  List.foldl_append

theorem run_append (next : Option σ → ε → σ) (base : Option σ) (front back : List ε) :
    run next base (front ++ back)
      = run next base front ++ run next (runLast next base front) back := by
  induction front generalizing base with
  | nil => rfl
  | cons e events ih => rw [List.cons_append, run_cons, ih, run_cons, runLast_cons,
      List.cons_append]

@[simp] theorem run_length (next : Option σ → ε → σ) (base : Option σ) (events : List ε) :
    (run next base events).length = events.length := by
  induction events generalizing base with
  | nil => rfl
  | cons e events ih => rw [run_cons, List.length_cons, ih, List.length_cons]

@[simp] theorem run_eq_nil {next : Option σ → ε → σ} {base : Option σ} {events : List ε} :
    run next base events = [] ↔ events = [] := by
  rw [← List.length_eq_zero_iff, run_length, List.length_eq_zero_iff]

/-- The last value of a run is the one it leaves behind. -/
theorem run_getLast? (next : Option σ → ε → σ) (base : Option σ) {events : List ε}
    (hne : events ≠ []) : (run next base events).getLast? = runLast next base events := by
  obtain ⟨front, e, rfl⟩ := (List.eq_nil_or_concat' events).resolve_left hne
  rw [run_append, runLast_append, run_cons, run_nil, List.getLast?_concat]
  rfl

/-- Every event makes one more version. -/
structure CountsEvents (version : σ → ℕ) (next : κ → Option σ → ε → σ) : Prop where
  first : ∀ k e, version (next k none e) = 1
  later : ∀ k s e, version (next k (some s) e) = version s + 1

/-- Run a list of events over every key. -/
def advance (version : σ → ℕ) (next : κ → Option σ → ε → σ) (t : VersionedTable κ σ)
    (events : κ → List ε) : VersionedTable κ σ :=
  { history := fun k => t.history k ++ run (next k) ((t.current k).map Prod.snd) (events k)
    current := fun k =>
      if events k = [] then t.current k
      else (runLast (next k) ((t.current k).map Prod.snd) (events k)).map (fun s => (version s, s)) }

omit [DecidableEq κ] in
@[simp] theorem advance_nil (t : VersionedTable κ σ) :
    t.advance version next (fun _ => []) = t := by
  cases t
  simp [advance]

omit [DecidableEq κ] in
variable (version next) in
/-- The current value a run leaves. -/
theorem value_advance (t : VersionedTable κ σ) (events : κ → List ε) (k : κ) :
    ((t.advance version next events).current k).map Prod.snd
      = runLast (next k) ((t.current k).map Prod.snd) (events k) := by
  change (if events k = [] then t.current k else _).map Prod.snd = _
  by_cases hnil : events k = []
  · rw [if_pos hnil, hnil, runLast_nil]
  · rw [if_neg hnil, Option.map_map]
    exact congrFun Option.map_id _

omit [DecidableEq κ] in
/-- **Runs compose.** -/
theorem advance_append (t : VersionedTable κ σ) (front back : κ → List ε) :
    t.advance version next (fun k => front k ++ back k)
      = (t.advance version next front).advance version next back := by
  have hvalue := value_advance version next t front
  unfold advance at hvalue ⊢
  congr 1
  · funext k
    rw [hvalue, run_append, List.append_assoc]
  · funext k
    rw [hvalue, runLast_append]
    by_cases hback : back k = []
    · by_cases hfront : front k = []
      · simp [hfront, hback]
      · simp [hfront, hback]
    · rw [if_neg (by simp [hback]), if_neg hback]

/-- The versions of a run count on from its base. -/
theorem counts_run {next : Option σ → ε → σ} (hfirst : ∀ e, version (next none e) = 1)
    (hlater : ∀ s e, version (next (some s) e) = version s + 1) (events : List ε) :
    ∀ {base : Option σ}, Counts version ((base.map version).getD 0) (run next base events) := by
  induction events with
  | nil => exact fun {base} => counts_nil
  | cons e events ih =>
      intro base
      have hversion : version (next base e) = (base.map version).getD 0 + 1 := by
        cases base with
        | none => exact hfirst e
        | some s => exact hlater s e
      have hrest : Counts version (((some (next base e)).map version).getD 0)
          (run next (some (next base e)) events) := ih
      rw [Option.map_some, Option.getD_some, hversion] at hrest
      unfold Counts at hrest ⊢
      rw [run_cons, List.map_cons, List.length_cons, List.range'_succ, hversion, hrest]

omit [DecidableEq κ] in
/-- The value under the current row carries the length of the history as its version. -/
theorem Mirrors.base_version (h : Mirrors version t) (k : κ) :
    (((t.current k).map Prod.snd).map version).getD 0 = (t.history k).length := by
  cases hc : t.current k with
  | none => rw [h.current_eq_none.mp hc]; rfl
  | some row =>
      obtain ⟨hlength, hversion⟩ := h.current_version hc
      rw [Option.map_some, Option.map_some, Option.getD_some, hversion, hlength]

omit [DecidableEq κ] in
theorem Mirrors.counts_advance (h : Mirrors version t) (hnext : CountsEvents version next)
    (events : κ → List ε) (k : κ) :
    Counts version (t.history k).length
      (run (next k) ((t.current k).map Prod.snd) (events k)) := by
  rw [← h.base_version k]
  exact counts_run (hnext.first k) (hnext.later k) (events k)

/-- **Rows that spell out a run are the run.** -/
theorem extend_eq_advance {events : κ → List ε} {rows : List (κ × σ)}
    (hrows : ∀ k, rowsOf rows k = run (next k) ((t.current k).map Prod.snd) (events k)) :
    t.extend version rows = t.advance version next events := by
  unfold extend advance
  congr 1
  · funext k
    rw [hrows]
  · funext k
    rw [hrows]
    by_cases hnil : events k = []
    · rw [if_pos (run_eq_nil.mpr hnil), if_pos hnil]
    · rw [if_neg (fun h => hnil (run_eq_nil.mp h)), if_neg hnil, latest, run_getLast? _ _ hnil]

theorem Mirrors.continues_of_run (h : Mirrors version t) (hnext : CountsEvents version next)
    {events : κ → List ε} {rows : List (κ × σ)}
    (hrows : ∀ k, rowsOf rows k = run (next k) ((t.current k).map Prod.snd) (events k)) :
    Continues version t rows := by
  intro k
  rw [hrows]
  exact h.counts_advance hnext events k

omit [DecidableEq κ] in
/-- **A run keeps the invariant.** -/
theorem Mirrors.advance (h : Mirrors version t) (hnext : CountsEvents version next)
    (events : κ → List ε) : Mirrors version (t.advance version next events) := by
  constructor
  · intro k
    refine counts_append.mpr ⟨h.counts k, ?_⟩
    rw [Nat.zero_add]
    exact h.counts_advance hnext events k
  · intro k
    change (if events k = [] then t.current k else _) = latest version (t.history k ++ _)
    by_cases hnil : events k = []
    · rw [if_pos hnil, hnil, run_nil, List.append_nil, h.current]
    · rw [if_neg hnil, latest, List.getLast?_append_of_ne_nil _ (fun h => hnil (run_eq_nil.mp h)),
        run_getLast? _ _ hnil]

end Advance

/-! ## Inserting under a unique constraint -/

variable (version)

/-- Append rows to the histories of their keys; `none` when two rows of a key would share a
version. -/
def appendHistory (t : VersionedTable κ σ) (rows : List (κ × σ)) : Option (κ → List σ) :=
  if rows.Pairwise (fun a b => a.1 = b.1 → version a.2 ≠ version b.2)
      ∧ ∀ row ∈ rows, ∀ s ∈ t.history row.1, version s ≠ version row.2 then
    some (fun k => t.history k ++ rowsOf rows k)
  else
    none

variable {version}

/-- Rows whose versions are new to their keys never violate the constraint. -/
theorem appendHistory_of_nodup {rows : List (κ × σ)}
    (hrows : ∀ k, ((t.history k ++ rowsOf rows k).map version).Nodup) :
    appendHistory version t rows = some (fun k => t.history k ++ rowsOf rows k) := by
  have hsplit : ∀ k, ((rowsOf rows k).map version).Nodup
      ∧ ∀ s ∈ t.history k, ∀ s' ∈ rowsOf rows k, version s ≠ version s' := by
    intro k
    have hk := hrows k
    rw [List.map_append, List.nodup_append] at hk
    exact ⟨hk.2.1, fun s hs s' hs' =>
      hk.2.2 _ (List.mem_map_of_mem hs) _ (List.mem_map_of_mem hs')⟩
  rw [appendHistory, if_pos]
  constructor
  · refine pairwise_of_filter_key Prod.fst (fun k => ?_)
    have hdistinct := (hsplit k).1
    rw [rowsOf, List.map_map] at hdistinct
    exact List.pairwise_map.mp hdistinct
  · rintro ⟨k, s'⟩ hrow s hs
    exact (hsplit k).2 s hs s' (mem_rowsOf.mpr hrow)

/-- Rows that continue the versions of their keys never violate the constraint. -/
theorem appendHistory_eq (h : Mirrors version t) {rows : List (κ × σ)}
    (hrows : Continues version t rows) :
    appendHistory version t rows = some (t.extend version rows).history := by
  refine appendHistory_of_nodup (fun k => ?_)
  have hcounts : Counts version 0 (t.history k ++ rowsOf rows k) :=
    counts_append.mpr ⟨h.counts k, by rw [Nat.zero_add]; exact hrows k⟩
  rw [hcounts]
  exact List.nodup_range'

/-- A successful append keeps the versions of a key apart. -/
theorem appendHistory_eq_some {rows : List (κ × σ)} {history : κ → List σ}
    (h : appendHistory version t rows = some history) :
    (∀ k, history k = t.history k ++ rowsOf rows k)
      ∧ ∀ k, ∀ s ∈ t.history k, ∀ s' ∈ rowsOf rows k, version s ≠ version s' := by
  rw [appendHistory] at h
  split at h
  · rename_i hcheck
    rw [← Option.some.inj h]
    exact ⟨fun k => rfl, fun k s hs s' hs' => hcheck.2 (k, s') (mem_rowsOf.mp hs') s hs⟩
  · cases h

end VersionedTable

/-! ## Splitting a list into chunks -/

/-- Chunks of `size`, the last one possibly shorter; `fuel` bounds their number. -/
def chunksAux {α : Type*} (size : ℕ) : ℕ → List α → List (List α)
  | _, [] => []
  | 0, _ :: _ => []
  | fuel + 1, a :: l => (a :: l).take size :: chunksAux size fuel ((a :: l).drop size)

/-- `slice::chunks`. -/
def chunks {α : Type*} (size : ℕ) (l : List α) : List (List α) := chunksAux size l.length l

theorem flatten_chunksAux {α : Type*} {size : ℕ} (hsize : 0 < size) (fuel : ℕ) :
    ∀ l : List α, l.length ≤ fuel → (chunksAux size fuel l).flatten = l := by
  induction fuel with
  | zero =>
      intro l hl
      rw [List.length_eq_zero_iff.mp (Nat.le_zero.mp hl)]
      rfl
  | succ fuel ih =>
      intro l hl
      cases l with
      | nil => rfl
      | cons a l =>
          rw [chunksAux, List.flatten_cons, ih, List.take_append_drop]
          rw [List.length_drop]
          omega

theorem flatten_chunks {α : Type*} {size : ℕ} (hsize : 0 < size) (l : List α) :
    (chunks size l).flatten = l :=
  flatten_chunksAux hsize l.length l le_rfl

end Foundations
