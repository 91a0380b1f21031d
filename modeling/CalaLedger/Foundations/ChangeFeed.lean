import CalaLedger.Foundations.LockTable
import Mathlib.Data.List.Chain

/-! # Change feeds

Operations change the rows of a table and announce the changes in a feed. An operation takes the
locks of a call, executes its statement, publishes what the statement announces, and holds its locks
to its end; other operations take their steps in between. A statement is `faithful` to what it sees:
it announces a creation only of a row that is not there. It may announce the removal of one that is
not there either.

The invariant is `Sound`. By it the feed, in any order that keeps what was published under a common
lock, tells of every row whether it is there, and it alternates between creations and removals
exactly if every removal found its row (`mirrors_iff`). -/

namespace Foundations

variable {ρ : Type}

/-- A change announced for a row, and whether the row was there before. -/
structure Announcement (ρ : Type) where
  row : ρ
  created : Bool
  present : Bool
  deriving DecidableEq

namespace Announcement

/-- Whether the row is there after an announcement that fits what was there before. -/
def follow (there : Bool) (announcement : Announcement ρ) : Option Bool :=
  if announcement.present = there ∧ (announcement.created = true → there = false) then
    some announcement.created
  else none

/-- Whether the row is there after some announcements about it. -/
def followAll (there : Bool) (announcements : List (Announcement ρ)) : Option Bool :=
  announcements.foldlM follow there

/-- The announcements about a row. -/
def on [DecidableEq ρ] (announcements : List (Announcement ρ)) (row : ρ) :
    List (Announcement ρ) :=
  announcements.filter (fun announcement => announcement.row = row)

/-- Creations and removals alternate, from a creation on if the row is not there. -/
def Alternates (there : Bool) (announcements : List (Announcement ρ)) : Prop :=
  List.IsChain (· ≠ ·) (there :: announcements.map Announcement.created)

variable {there there' : Bool} {announcement : Announcement ρ}
  {announcements others : List (Announcement ρ)}

theorem follow_eq_some : announcement.follow there = some there' ↔
    announcement.present = there ∧ (announcement.created = true → there = false)
      ∧ announcement.created = there' := by
  rw [follow, Option.ite_none_right_eq_some, Option.some.injEq, and_assoc]

@[simp] theorem followAll_nil : followAll there ([] : List (Announcement ρ)) = some there := rfl

theorem followAll_cons : followAll there (announcement :: announcements) = some there' ↔
    announcement.present = there ∧ (announcement.created = true → there = false)
      ∧ followAll announcement.created announcements = some there' := by
  rw [followAll, List.foldlM_cons]
  constructor
  · intro h
    obtain ⟨next, hnext, hrest⟩ := Option.bind_eq_some_iff.mp h
    obtain ⟨hpresent, hcreated, rfl⟩ := follow_eq_some.mp hnext
    exact ⟨hpresent, hcreated, hrest⟩
  · rintro ⟨hpresent, hcreated, hrest⟩
    exact Option.bind_eq_some_iff.mpr ⟨_, follow_eq_some.mpr ⟨hpresent, hcreated, rfl⟩, hrest⟩

theorem followAll_append (h : followAll there announcements = some there') :
    followAll there (announcements ++ others) = followAll there' others := by
  rw [followAll, List.foldlM_append, ← followAll, h]
  rfl

/-- The last announcement tells whether the row is there. -/
theorem followAll_last (h : followAll there announcements = some there') :
    there' = (announcements.getLast?.map Announcement.created).getD there := by
  induction announcements using List.reverseRecOn with
  | nil => exact (Option.some.inj h).symm
  | append_singleton announcements announcement ih =>
    rw [List.getLast?_concat, Option.map_some, Option.getD_some]
    cases hfront : followAll there announcements with
    | none =>
      rw [followAll, List.foldlM_append, ← followAll, hfront] at h
      cases h
    | some middle =>
      rw [followAll_append hfront] at h
      exact (Option.some.inj (followAll_cons.mp h).2.2).symm

/-- Announcements that fit alternate exactly if every removal found its row. -/
theorem alternates_iff (h : followAll there announcements = some there') :
    Alternates there announcements
      ↔ ∀ announcement ∈ announcements, announcement.created = false →
        announcement.present = true := by
  induction announcements generalizing there with
  | nil => exact ⟨fun _ _ hmem => absurd hmem List.not_mem_nil, fun _ => List.isChain_singleton _⟩
  | cons announcement announcements ih =>
    obtain ⟨hpresent, hcreated, hrest⟩ := followAll_cons.mp h
    rw [Alternates, List.map_cons, List.isChain_cons_cons, List.forall_mem_cons]
    refine and_congr ?_ (ih hrest)
    rw [hpresent]
    cases hkind : announcement.created with
    | true => simp [hcreated hkind]
    | false => simp

variable [DecidableEq ρ] {row : ρ}

@[simp] theorem on_nil : on ([] : List (Announcement ρ)) row = [] := rfl

theorem on_append : on (announcements ++ others) row = on announcements row ++ on others row :=
  List.filter_append ..

theorem mem_on : announcement ∈ on announcements row
    ↔ announcement ∈ announcements ∧ announcement.row = row := by
  simp only [on, List.mem_filter, decide_eq_true_eq]

end Announcement

open Announcement

variable {α κ τ : Type}

/-- What calls there are: the locks each requests, and what its statement announces given the rows it
sees, unless it fails. -/
structure FeedProgram (α ρ κ : Type) [DecidableEq ρ] where
  requests : α → List (LockRequest κ)
  execute : α → (ρ → Bool) → Option (List (Announcement ρ))
  lockOf : ρ → κ
  /-- a call locks the rows it changes -/
  locks : ∀ {call view announcements}, execute call view = some announcements →
    ∀ announcement ∈ announcements, ⟨lockOf announcement.row, .exclusive⟩ ∈ requests call
  /-- what is announced fits what the statement saw -/
  faithful : ∀ {call view announcements}, execute call view = some announcements →
    ∀ row, ∃ there, followAll (view row) (on announcements row) = some there

inductive OperationStatus
  | running
  | committed
  | rolledBack
  deriving DecidableEq

/-- Where an operation is in a call. -/
inductive CallStage (α ρ κ : Type)
  | idle
  | locking (call : α) (remaining : List (LockRequest κ))
  | publishing (announcements : List (Announcement ρ))

/-- What is executed and not yet published. -/
def CallStage.pending : CallStage α ρ κ → List (Announcement ρ)
  | publishing announcements => announcements
  | _ => []

/-- An operation: the locks it has taken, the changes of its statements, and its present call. -/
structure FeedOperation (α ρ κ : Type) where
  status : OperationStatus
  held : List (LockRequest κ)
  changes : List (Announcement ρ)
  stage : CallStage α ρ κ

/-- Which rows are committed, and what was published by which operation. -/
structure FeedState (τ α ρ κ : Type) where
  rows : ρ → Bool
  log : List (τ × Announcement ρ)
  operations : τ → FeedOperation α ρ κ

namespace FeedState

/-- There are no rows, and no operation has done anything. -/
def start : FeedState τ α ρ κ :=
  ⟨fun _ => false, [], fun _ => ⟨.running, [], [], .idle⟩⟩

section Steps

variable [DecidableEq ρ] (state : FeedState τ α ρ κ)

/-- The rows a statement of an operation sees: the committed ones under its own changes. -/
def view (t : τ) (row : ρ) : Bool :=
  ((on (state.operations t).changes row).getLast?.map Announcement.created).getD (state.rows row)

def Running (t : τ) : Prop := (state.operations t).status = .running

/-- A lock that no other running operation prevents. -/
def Free (t : τ) (request : LockRequest κ) : Prop :=
  ∀ u, u ≠ t → state.Running u → ∀ other ∈ (state.operations u).held, ¬ request.Conflicts other

variable [DecidableEq τ]

def setOperation (t : τ) (operation : FeedOperation α ρ κ) : FeedState τ α ρ κ :=
  { state with operations := Function.update state.operations t operation }

/-- An operation publishes announcements. -/
def publish (t : τ) (announcements : List (Announcement ρ)) : FeedState τ α ρ κ :=
  { state with log := state.log ++ announcements.map (fun announcement => (t, announcement)) }

/-- The changes of an operation become the committed rows. -/
def settle (t : τ) : FeedState τ α ρ κ := { state with rows := state.view t }

end Steps

variable [DecidableEq ρ] [DecidableEq τ] (program : FeedProgram α ρ κ)

/-- One step of one operation. An operation may be rolled back at any time. -/
inductive Step : FeedState τ α ρ κ → FeedState τ α ρ κ → Prop
  | call {state} {t : τ} (call : α) :
      state.Running t → (state.operations t).stage = .idle →
      Step state (state.setOperation t
        { state.operations t with stage := .locking call (program.requests call) })
  | lock {state} {t : τ} {call : α} {request : LockRequest κ} {remaining : List (LockRequest κ)} :
      state.Running t → (state.operations t).stage = .locking call (request :: remaining) →
      state.Free t request →
      Step state (state.setOperation t
        { state.operations t with
          held := (state.operations t).held ++ [request]
          stage := .locking call remaining })
  | execute {state} {t : τ} {call : α} {announcements : List (Announcement ρ)} :
      state.Running t → (state.operations t).stage = .locking call [] →
      program.execute call (state.view t) = some announcements →
      Step state (state.setOperation t
        { state.operations t with
          changes := (state.operations t).changes ++ announcements
          stage := .publishing announcements })
  | publish {state} {t : τ} {announcements : List (Announcement ρ)} :
      state.Running t → (state.operations t).stage = .publishing announcements →
      Step state ((state.publish t announcements).setOperation t
        { state.operations t with stage := .idle })
  | commit {state} {t : τ} :
      state.Running t → (state.operations t).stage = .idle →
      Step state ((state.settle t).setOperation t
        { state.operations t with status := .committed })
  | rollback {state} {t : τ} :
      state.Running t →
      Step state (state.setOperation t { state.operations t with status := .rolledBack })

/-- The states reached while operations take their steps in any order. -/
def Reachable (state : FeedState τ α ρ κ) : Prop :=
  Relation.ReflTransGen (Step program) start state

/-! ## Sound states -/

section Log

variable (state : FeedState τ α ρ κ)

/-- Whether the operation has committed. -/
def Committed (t : τ) : Prop := (state.operations t).status = .committed

instance (t : τ) : Decidable (state.Committed t) :=
  inferInstanceAs (Decidable (_ = _))

/-- What some operations published, in order. -/
def announced (of : τ → Prop) [DecidablePred of] : List (Announcement ρ) :=
  (state.log.filter (fun entry => of entry.1)).map Prod.snd

/-- What some operations published about a row, in order. -/
def published (of : τ → Prop) [DecidablePred of] (row : ρ) : List (Announcement ρ) :=
  on (state.announced of) row

end Log

/-- The committed rows are those the committed announcements lead to, and whoever has changed a row
holds its lock until it has ended. -/
structure Sound (state : FeedState τ α ρ κ) : Prop where
  compatible : ∀ t u, t ≠ u → state.Running t → state.Running u →
    ∀ own ∈ (state.operations t).held, ∀ other ∈ (state.operations u).held, ¬ own.Conflicts other
  locked : ∀ t, ∀ change ∈ (state.operations t).changes,
    ⟨program.lockOf change.row, .exclusive⟩ ∈ (state.operations t).held
  locking : ∀ t call remaining, (state.operations t).stage = .locking call remaining →
    ∀ request ∈ program.requests call,
      request ∈ (state.operations t).held ∨ request ∈ remaining
  executed : ∀ t, state.announced (fun u => u = t) ++ (state.operations t).stage.pending
    = (state.operations t).changes
  fits : ∀ t, state.Running t → ∀ row, ∃ there,
    followAll (state.rows row) (on (state.operations t).changes row) = some there
  mirrored : ∀ row, followAll false (state.published state.Committed row) = some (state.rows row)
  ordered : ∀ t, state.Running t → ∀ row,
    state.published (fun u => state.Committed u ∨ u = t) row
      = state.published state.Committed row ++ state.published (fun u => u = t) row

variable {program} {state state' : FeedState τ α ρ κ} {t u : τ} {row : ρ}

section Readings

omit [DecidableEq ρ] in
theorem operations_setOperation_self {operation : FeedOperation α ρ κ} :
    (state.setOperation t operation).operations t = operation :=
  Function.update_self ..

omit [DecidableEq ρ] in
theorem operations_setOperation_of_ne {operation : FeedOperation α ρ κ} (h : u ≠ t) :
    (state.setOperation t operation).operations u = state.operations u :=
  Function.update_of_ne h ..

omit [DecidableEq τ] in
theorem published_congr (feed : FeedState τ α ρ κ) (of of' : τ → Prop) [DecidablePred of]
    [DecidablePred of']
    (h : ∀ entry ∈ feed.log, entry.2.row = row → (of entry.1 ↔ of' entry.1)) :
    feed.published of row = feed.published of' row := by
  unfold published announced on
  rw [List.filter_map, List.filter_map, List.filter_filter, List.filter_filter]
  congr 1
  refine List.filter_congr (fun entry hentry => ?_)
  by_cases hrow : entry.2.row = row
  · simp [hrow, h entry hentry hrow]
  · simp [hrow]

omit [DecidableEq ρ] in
theorem mem_announced {entry : τ × Announcement ρ} (h : entry ∈ state.log) :
    entry.2 ∈ state.announced (fun u => u = entry.1) :=
  List.mem_map.mpr ⟨entry, List.mem_filter.mpr ⟨h, decide_eq_true rfl⟩, rfl⟩

/-- What an operation sees follows from the committed rows by its changes. -/
theorem Sound.view_spec (h : state.Sound program) (ht : state.Running t) (row : ρ) :
    followAll (state.rows row) (on (state.operations t).changes row) = some (state.view t row) := by
  obtain ⟨there, hthere⟩ := h.fits t ht row
  rw [hthere, followAll_last hthere]
  rfl

/-- What was published was a change of the operation that published it. -/
theorem Sound.changed_of_logged (h : state.Sound program) {entry : τ × Announcement ρ}
    (hentry : entry ∈ state.log) : entry.2 ∈ (state.operations entry.1).changes := by
  rw [← h.executed entry.1]
  exact List.mem_append_left _ (mem_announced hentry)

/-- Two running operations never have changed the same row. -/
theorem Sound.exclusive (h : state.Sound program) (hne : t ≠ u) (ht : state.Running t)
    (hu : state.Running u) (row : ρ) :
    on (state.operations t).changes row = [] ∨ on (state.operations u).changes row = [] := by
  by_contra hboth
  obtain ⟨hown, hother⟩ := not_or.mp hboth
  obtain ⟨own, hmine⟩ := List.exists_mem_of_ne_nil _ hown
  obtain ⟨other, htheirs⟩ := List.exists_mem_of_ne_nil _ hother
  have hlock := h.locked t own (mem_on.mp hmine).1
  have hlock' := h.locked u other (mem_on.mp htheirs).1
  rw [(mem_on.mp hmine).2] at hlock
  rw [(mem_on.mp htheirs).2] at hlock'
  exact h.compatible t u hne ht hu _ hlock _ hlock' ⟨rfl, Or.inl rfl⟩

/-- An operation that has not changed a row has published nothing about it. -/
theorem Sound.published_of_unchanged (h : state.Sound program)
    (hrow : on (state.operations t).changes row = []) :
    state.published (fun u => u = t) row = [] := by
  rw [← h.executed t, on_append] at hrow
  exact (List.append_eq_nil_iff.mp hrow).1

theorem Sound.ne_of_unchanged (h : state.Sound program)
    (hrow : on (state.operations t).changes row = []) {entry : τ × Announcement ρ}
    (hentry : entry ∈ state.log) (hsame : entry.2.row = row) : entry.1 ≠ t := by
  rintro rfl
  have hmem := mem_on.mpr ⟨h.changed_of_logged hentry, hsame⟩
  rw [hrow] at hmem
  cases hmem

end Readings

/-! ## Steps -/

section Preserved

omit [DecidableEq ρ] in
theorem running_iff_of_ne {operation : FeedOperation α ρ κ} (h : u ≠ t) :
    (state.setOperation t operation).Running u ↔ state.Running u := by
  rw [Running, operations_setOperation_of_ne h]
  rfl

/-- A change of one running operation, the published log and the rows apart. -/
theorem Sound.setOperation {operation : FeedOperation α ρ κ} (h : state.Sound program)
    (ht : state.Running t) (hstatus : operation.status ≠ .committed)
    (hfree : operation.status = .running → ∀ u, u ≠ t → state.Running u →
      ∀ own ∈ operation.held, ∀ other ∈ (state.operations u).held, ¬ own.Conflicts other)
    (hlocked : ∀ change ∈ operation.changes,
      ⟨program.lockOf change.row, .exclusive⟩ ∈ operation.held)
    (hlocking : ∀ call remaining, operation.stage = .locking call remaining →
      ∀ request ∈ program.requests call, request ∈ operation.held ∨ request ∈ remaining)
    (hexecuted : state.announced (fun u => u = t) ++ operation.stage.pending = operation.changes)
    (hfits : ∀ row, ∃ there,
      followAll (state.rows row) (on operation.changes row) = some there) :
    (state.setOperation t operation).Sound program := by
  have hcommitted : ∀ u, (state.setOperation t operation).Committed u ↔ state.Committed u := by
    intro u
    by_cases hu : u = t
    · subst hu
      rw [Committed, operations_setOperation_self, Committed, ht]
      exact ⟨fun heq => absurd heq hstatus, fun heq => by cases heq⟩
    · rw [Committed, operations_setOperation_of_ne hu, Committed]
  have hpublished : ∀ row, (state.setOperation t operation).published
      (state.setOperation t operation).Committed row = state.published state.Committed row :=
    fun row => published_congr state _ _ (fun entry _ _ => hcommitted entry.1)
  refine ⟨?_, ?_, ?_, ?_, ?_, ?_, ?_⟩
  · intro u v hne hu hv own hown other hother hconflicts
    by_cases hut : u = t
    · subst hut
      rw [running_iff_of_ne hne.symm] at hv
      rw [Running, operations_setOperation_self] at hu
      rw [operations_setOperation_self] at hown
      rw [operations_setOperation_of_ne hne.symm] at hother
      exact hfree hu v hne.symm hv own hown other hother hconflicts
    · rw [running_iff_of_ne hut] at hu
      rw [operations_setOperation_of_ne hut] at hown
      by_cases hvt : v = t
      · subst hvt
        rw [Running, operations_setOperation_self] at hv
        rw [operations_setOperation_self] at hother
        exact hfree hv u hut hu other hother own hown hconflicts.symm
      · rw [running_iff_of_ne hvt] at hv
        rw [operations_setOperation_of_ne hvt] at hother
        exact h.compatible u v hne hu hv own hown other hother hconflicts
  · intro u
    by_cases hu : u = t
    · subst hu
      rw [operations_setOperation_self]
      exact hlocked
    · rw [operations_setOperation_of_ne hu]
      exact h.locked u
  · intro u
    by_cases hu : u = t
    · subst hu
      rw [operations_setOperation_self]
      exact hlocking
    · rw [operations_setOperation_of_ne hu]
      exact h.locking u
  · intro u
    by_cases hu : u = t
    · subst hu
      rw [operations_setOperation_self]
      exact hexecuted
    · rw [operations_setOperation_of_ne hu]
      exact h.executed u
  · intro u hu
    by_cases hut : u = t
    · subst hut
      rw [operations_setOperation_self]
      exact hfits
    · rw [running_iff_of_ne hut] at hu
      rw [operations_setOperation_of_ne hut]
      exact h.fits u hu
  · intro row
    rw [hpublished]
    exact h.mirrored row
  · intro u hu row
    have hu : state.Running u := by
      by_cases hut : u = t
      · exact hut ▸ ht
      · exact (running_iff_of_ne hut).mp hu
    have hsame : (state.setOperation t operation).published
        (fun v => (state.setOperation t operation).Committed v ∨ v = u) row
        = state.published (fun v => state.Committed v ∨ v = u) row :=
      published_congr state (fun v => (state.setOperation t operation).Committed v ∨ v = u)
        (fun v => state.Committed v ∨ v = u) (fun entry _ _ => or_congr_left (hcommitted entry.1))
    rw [hpublished, hsame]
    exact h.ordered u hu row

omit [DecidableEq ρ] [DecidableEq τ] in
theorem announced_publish {announcements : List (Announcement ρ)} {of : τ → Prop}
    [DecidablePred of] :
    (state.publish t announcements).announced of
      = state.announced of ++ if of t then announcements else [] := by
  rw [announced, publish, List.filter_append, List.map_append]
  congr 1
  split
  · rename_i ht
    rw [List.filter_eq_self.mpr, List.map_map]
    · exact List.map_id _
    · intro entry hentry
      obtain ⟨announcement, -, rfl⟩ := List.mem_map.mp hentry
      exact decide_eq_true ht
  · rename_i ht
    rw [List.filter_eq_nil_iff.mpr]
    · rfl
    · intro entry hentry
      obtain ⟨announcement, -, rfl⟩ := List.mem_map.mp hentry
      simpa using ht

omit [DecidableEq τ] in
theorem published_publish {announcements : List (Announcement ρ)} (of : τ → Prop)
    [DecidablePred of] (row : ρ) :
    (state.publish t announcements).published of row
      = state.published of row ++ on (if of t then announcements else []) row := by
  rw [published, announced_publish, on_append, published]

/-- Publishing what was executed. -/
theorem Sound.publish {announcements : List (Announcement ρ)} (h : state.Sound program)
    (ht : state.Running t) (hstage : (state.operations t).stage = .publishing announcements) :
    ((state.publish t announcements).setOperation t
      { state.operations t with stage := .idle }).Sound program := by
  set operation : FeedOperation α ρ κ := { state.operations t with stage := .idle } with hoperation
  set state' := (state.publish t announcements).setOperation t operation with hstate'
  have hsame : ∀ u, (state'.operations u).status = (state.operations u).status
      ∧ (state'.operations u).held = (state.operations u).held
      ∧ (state'.operations u).changes = (state.operations u).changes := by
    intro u
    by_cases hu : u = t
    · subst hu
      rw [hstate', operations_setOperation_self]
      exact ⟨rfl, rfl, rfl⟩
    · rw [hstate', operations_setOperation_of_ne hu]
      exact ⟨rfl, rfl, rfl⟩
  have hrunning : ∀ u, state'.Running u → state.Running u := by
    intro u hu
    rw [Running, (hsame u).1] at hu
    exact hu
  have hcommitted : ∀ u, state'.Committed u ↔ state.Committed u := by
    intro u
    rw [Committed, (hsame u).1, Committed]
  have hopen : ¬ state.Committed t := by
    rw [Committed, ht]
    exact nofun
  have hmirrored : ∀ row, state'.published state'.Committed row
      = state.published state.Committed row := by
    intro row
    have hcongr : state'.published state'.Committed row
        = (state.publish t announcements).published state.Committed row :=
      published_congr state' _ _ (fun entry _ _ => hcommitted entry.1)
    rw [hcongr, published_publish, if_neg hopen, on_nil, List.append_nil]
  refine ⟨?_, ?_, ?_, ?_, ?_, ?_, ?_⟩
  · intro u v hne hu hv
    rw [(hsame u).2.1, (hsame v).2.1]
    exact h.compatible u v hne (hrunning u hu) (hrunning v hv)
  · intro u
    rw [(hsame u).2.1, (hsame u).2.2]
    exact h.locked u
  · intro u call remaining hlocking
    rw [(hsame u).2.1]
    by_cases hu : u = t
    · subst hu
      rw [hstate', operations_setOperation_self] at hlocking
      cases hlocking
    · rw [hstate', operations_setOperation_of_ne hu] at hlocking
      exact h.locking u call remaining hlocking
  · intro u
    rw [(hsame u).2.2, ← h.executed u]
    show (state.publish t announcements).announced (fun v => v = u)
      ++ (state'.operations u).stage.pending = _
    rw [announced_publish]
    by_cases hu : u = t
    · subst hu
      rw [if_pos rfl, hstate', operations_setOperation_self, hstage]
      exact List.append_nil _
    · rw [if_neg (Ne.symm hu), hstate', operations_setOperation_of_ne hu, List.append_nil]
      rfl
  · intro u hu row
    rw [(hsame u).2.2]
    exact h.fits u (hrunning u hu) row
  · intro row
    rw [hmirrored]
    exact h.mirrored row
  · intro u hu row
    have hown : state'.published (fun v => v = u) row
        = state.published (fun v => v = u) row
          ++ on (if t = u then announcements else []) row := by
      show (state.publish t announcements).published (fun v => v = u) row = _
      exact published_publish _ row
    have hboth : state'.published (fun v => state'.Committed v ∨ v = u) row
        = (state.publish t announcements).published (fun v => state.Committed v ∨ v = u) row :=
      published_congr state' (fun v => state'.Committed v ∨ v = u)
        (fun v => state.Committed v ∨ v = u) (fun entry _ _ => or_congr_left (hcommitted entry.1))
    rw [hmirrored, hown, hboth, published_publish, h.ordered u (hrunning u hu) row,
      List.append_assoc]
    congr 2
    by_cases hu : t = u
    · rw [if_pos hu, if_pos (Or.inr hu)]
    · rw [if_neg hu, if_neg (not_or.mpr ⟨hopen, hu⟩)]

/-- Committing an operation that has published all its changes. -/
theorem Sound.commit (h : state.Sound program) (ht : state.Running t)
    (hstage : (state.operations t).stage = .idle) :
    ((state.settle t).setOperation t
      { state.operations t with status := .committed }).Sound program := by
  set operation : FeedOperation α ρ κ := { state.operations t with status := .committed }
    with hoperation
  set state' := (state.settle t).setOperation t operation with hstate'
  have hsame : ∀ u, (state'.operations u).held = (state.operations u).held
      ∧ (state'.operations u).changes = (state.operations u).changes
      ∧ (state'.operations u).stage = (state.operations u).stage := by
    intro u
    by_cases hu : u = t
    · subst hu
      rw [hstate', operations_setOperation_self]
      exact ⟨rfl, rfl, rfl⟩
    · rw [hstate', operations_setOperation_of_ne hu]
      exact ⟨rfl, rfl, rfl⟩
  have hrunning : ∀ u, state'.Running u → u ≠ t ∧ state.Running u := by
    intro u hu
    by_cases hut : u = t
    · subst hut
      rw [Running, hstate', operations_setOperation_self] at hu
      cases hu
    · exact ⟨hut, (running_iff_of_ne hut).mp hu⟩
  have hcommitted : ∀ u, state'.Committed u ↔ state.Committed u ∨ u = t := by
    intro u
    by_cases hut : u = t
    · subst hut
      rw [Committed, hstate', operations_setOperation_self]
      exact ⟨fun _ => Or.inr rfl, fun _ => rfl⟩
    · rw [Committed, hstate', operations_setOperation_of_ne hut]
      exact ⟨Or.inl, fun hor => hor.resolve_right hut⟩
  have hown : ∀ row, state.published (fun u => u = t) row = on (state.operations t).changes row := by
    intro row
    rw [← h.executed t, hstage]
    exact congrArg (fun announcements => on announcements row) (List.append_nil _).symm
  refine ⟨?_, ?_, ?_, ?_, ?_, ?_, ?_⟩
  · intro u v hne hu hv
    rw [(hsame u).1, (hsame v).1]
    exact h.compatible u v hne (hrunning u hu).2 (hrunning v hv).2
  · intro u
    rw [(hsame u).1, (hsame u).2.1]
    exact h.locked u
  · intro u
    rw [(hsame u).1, (hsame u).2.2]
    exact h.locking u
  · intro u
    rw [(hsame u).2.1, (hsame u).2.2]
    exact h.executed u
  · intro u hu row
    obtain ⟨hne, hu⟩ := hrunning u hu
    rw [(hsame u).2.1]
    show ∃ there, followAll (state.view t row) _ = some there
    rcases h.exclusive hne hu ht row with hnone | hnone
    · exact ⟨_, by rw [hnone, followAll_nil]⟩
    · have hkept : state.view t row = state.rows row := by
        rw [view, hnone]
        rfl
      rw [hkept]
      exact h.fits u hu row
  · intro row
    have hall : state'.published state'.Committed row
        = state.published (fun u => state.Committed u ∨ u = t) row :=
      published_congr state _ _ (fun entry _ _ => hcommitted entry.1)
    rw [hall, h.ordered t ht row, followAll_append (h.mirrored row), hown]
    exact h.view_spec ht row
  · intro u hu row
    obtain ⟨hne, hu⟩ := hrunning u hu
    show state.published (fun v => state'.Committed v ∨ v = u) row
      = state.published state'.Committed row ++ state.published (fun v => v = u) row
    rcases h.exclusive hne hu ht row with hnone | hnone
    · -- the other operation has published nothing about the row
      rw [h.published_of_unchanged hnone, List.append_nil]
      refine published_congr state _ _ (fun entry hentry hrow => ?_)
      have hentry := h.ne_of_unchanged hnone hentry hrow
      exact ⟨fun hor => hor.resolve_right hentry, Or.inl⟩
    · -- the committed operation has
      have hold : state.published state'.Committed row = state.published state.Committed row := by
        refine published_congr state _ _ (fun entry hentry hrow => ?_)
        rw [hcommitted]
        exact ⟨fun hor => hor.resolve_right (h.ne_of_unchanged hnone hentry hrow), Or.inl⟩
      have hboth : state.published (fun v => state'.Committed v ∨ v = u) row
          = state.published (fun v => state.Committed v ∨ v = u) row := by
        refine published_congr state _ _ (fun entry hentry hrow => or_congr_left ?_)
        rw [hcommitted]
        exact ⟨fun hor => hor.resolve_right (h.ne_of_unchanged hnone hentry hrow), Or.inl⟩
      rw [hold, hboth]
      exact h.ordered u hu row

/-- **One step** keeps a state sound. -/
theorem Sound.step (h : state.Sound program) (hstep : Step program state state') :
    state'.Sound program := by
  cases hstep with
  | call call ht hstage =>
    refine h.setOperation ht ?_ ?_ (h.locked _) ?_ ?_ (h.fits _ ht)
    · show (state.operations _).status ≠ _
      rw [ht]
      exact nofun
    · exact fun _ u hne hu => h.compatible _ u hne.symm ht hu
    · rintro _ _ ⟨⟩ request hrequest
      exact Or.inr hrequest
    · rw [← h.executed, hstage]
      rfl
  | @lock t call request remaining ht hstage hfree =>
    refine h.setOperation ht ?_ ?_ ?_ ?_ ?_ (h.fits _ ht)
    · show (state.operations _).status ≠ _
      rw [ht]
      exact nofun
    · intro _ u hne hu own hown
      rcases List.mem_append.mp hown with hheld | hnew
      · exact h.compatible _ u hne.symm ht hu own hheld
      · rw [List.mem_singleton.mp hnew]
        exact hfree u hne hu
    · exact fun change hchange => List.mem_append_left _ (h.locked t change hchange)
    · rintro _ _ ⟨⟩ request' hrequest
      rcases h.locking t call _ hstage request' hrequest with hheld | hremaining
      · exact Or.inl (List.mem_append_left _ hheld)
      · rcases List.mem_cons.mp hremaining with rfl | hremaining
        · exact Or.inl (List.mem_append_right _ (List.mem_singleton_self _))
        · exact Or.inr hremaining
    · rw [← h.executed, hstage]
      rfl
  | @execute t call announcements ht hstage hexecute =>
    refine h.setOperation ht ?_ ?_ ?_ ?_ ?_ ?_
    · show (state.operations _).status ≠ _
      rw [ht]
      exact nofun
    · exact fun _ u hne hu => h.compatible _ u hne.symm ht hu
    · intro change hchange
      rcases List.mem_append.mp hchange with hold | hnew
      · exact h.locked t change hold
      · have hrequest := program.locks hexecute change hnew
        exact (h.locking t call [] hstage _ hrequest).resolve_right List.not_mem_nil
    · exact nofun
    · have hexecuted := h.executed t
      rw [hstage] at hexecuted
      exact congrArg (fun front => front ++ announcements)
        ((List.append_nil _).symm.trans hexecuted)
    · intro row
      rw [on_append, followAll_append (h.view_spec ht row)]
      exact program.faithful hexecute row
  | publish ht hstage => exact h.publish ht hstage
  | commit ht hstage => exact h.commit ht hstage
  | rollback ht =>
    exact h.setOperation ht nofun nofun (h.locked _) (h.locking _) (h.executed _) (h.fits _ ht)

theorem sound_start : (start : FeedState τ α ρ κ).Sound program where
  compatible _ _ _ _ _ _ h := absurd h List.not_mem_nil
  locked _ _ h := absurd h List.not_mem_nil
  locking := nofun
  executed _ := rfl
  fits _ _ _ := ⟨_, rfl⟩
  mirrored _ := rfl
  ordered _ _ _ := rfl

theorem Reachable.sound (h : Reachable program state) : state.Sound program := by
  induction h with
  | refl => exact sound_start
  | tail _ hstep ih => exact ih.step hstep

end Preserved

/-! ## The feed -/

/-- What consumers are delivered: the announcements of the committed operations, those of operations
that held a lock exclusively in the order they were published. -/
structure Delivers (state : FeedState τ α ρ κ) (feed : List (τ × Announcement ρ)) : Prop where
  perm : feed.Perm (state.log.filter (fun entry => state.Committed entry.1))
  ordered : ∀ (lock : κ) (holds : τ → Bool),
    (∀ t, holds t = true ↔ ⟨lock, .exclusive⟩ ∈ (state.operations t).held) →
    feed.filter (fun entry => holds entry.1)
      = (state.log.filter (fun entry => state.Committed entry.1)).filter
        (fun entry => holds entry.1)

/-- The announcements of a feed about a row. -/
def feedOn (feed : List (τ × Announcement ρ)) (row : ρ) : List (Announcement ρ) :=
  on (feed.map Prod.snd) row

/-- The feed has the announcements about a row in the order they were published. -/
theorem Delivers.feedOn_eq (h : state.Sound program) {feed : List (τ × Announcement ρ)}
    (hfeed : state.Delivers feed) (row : ρ) :
    feedOn feed row = state.published state.Committed row := by
  classical
  have hlogged : ∀ entry ∈ state.log, entry.2.row = row →
      ⟨program.lockOf row, .exclusive⟩ ∈ (state.operations entry.1).held := by
    rintro entry hentry rfl
    exact h.locked entry.1 entry.2 (h.changed_of_logged hentry)
  have hordered := hfeed.ordered (program.lockOf row)
    (fun t => decide (⟨program.lockOf row, .exclusive⟩ ∈ (state.operations t).held))
    (fun t => decide_eq_true_iff)
  -- every entry about the row is by an operation that held the row's lock
  have hnarrow : ∀ entries : List (τ × Announcement ρ), entries ⊆ state.log →
      on (entries.map Prod.snd) row = on ((entries.filter (fun entry =>
        decide (⟨program.lockOf row, .exclusive⟩ ∈ (state.operations entry.1).held))).map
          Prod.snd) row := by
    intro entries hentries
    unfold on
    rw [List.filter_map, List.filter_map, List.filter_filter]
    congr 1
    refine List.filter_congr (fun entry hentry => ?_)
    by_cases hrow : entry.2.row = row
    · simp [hrow, hlogged entry (hentries hentry) hrow]
    · simp [hrow]
  have hcommitted : state.log.filter (fun entry => state.Committed entry.1) ⊆ state.log :=
    fun entry hentry => (List.mem_filter.mp hentry).1
  rw [feedOn, hnarrow feed (fun entry hentry => hcommitted (hfeed.perm.subset hentry)), hordered,
    ← hnarrow _ hcommitted]
  rfl

/-- **What the feed tells of a row.** Its last announcement tells whether the row is there. Creations
and removals alternate exactly if every removal found the row. -/
theorem mirrors_iff (h : Reachable program state) {feed : List (τ × Announcement ρ)}
    (hfeed : state.Delivers feed) (row : ρ) :
    state.rows row = ((feedOn feed row).getLast?.map Announcement.created).getD false
      ∧ (Alternates false (feedOn feed row)
        ↔ ∀ announcement ∈ feedOn feed row, announcement.created = false →
          announcement.present = true) := by
  rw [Delivers.feedOn_eq h.sound hfeed row]
  have hmirrored := h.sound.mirrored row
  exact ⟨followAll_last hmirrored, alternates_iff hmirrored⟩

end FeedState

end Foundations
