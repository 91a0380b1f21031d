import Mathlib.Data.List.Infix
import Mathlib.Data.List.Nodup
import Mathlib.Logic.Relation
import Mathlib.Order.Lattice

/-! # Lock tables

Transactions that request locks in an order of their own and hold them to their end. A lock is
shared or exclusive, waiters queue first come first served, and a request for what the transaction
already holds is granted at once.

The invariant of a table is `Sound`. Transactions that all request their locks along one rank of
the locks never wait for each other in a cycle (`acyclic_of_ascending`). -/

namespace Foundations

inductive LockMode
  | shared
  | exclusive
  deriving DecidableEq, Repr

/-- A lock and the mode it is requested in. -/
structure LockRequest (κ : Type) where
  lock : κ
  mode : LockMode
  deriving DecidableEq, Repr

namespace LockRequest

variable {κ : Type}

/-- Two requests that are not granted to different transactions. -/
def Conflicts (request other : LockRequest κ) : Prop :=
  request.lock = other.lock ∧ (request.mode = .exclusive ∨ other.mode = .exclusive)

/-- Who holds the first needs nothing more for the second. -/
def Covers (held request : LockRequest κ) : Prop :=
  held.lock = request.lock ∧ (held.mode = .exclusive ∨ request.mode = .shared)

instance instDecidableConflicts [DecidableEq κ] (request other : LockRequest κ) :
    Decidable (request.Conflicts other) :=
  inferInstanceAs (Decidable (_ ∧ _))

instance instDecidableCovers [DecidableEq κ] (held request : LockRequest κ) :
    Decidable (held.Covers request) :=
  inferInstanceAs (Decidable (_ ∧ _))

theorem Conflicts.symm {request other : LockRequest κ} (h : request.Conflicts other) :
    other.Conflicts request :=
  ⟨h.1.symm, h.2.symm⟩

/-- What conflicts with a request conflicts with what covers it. -/
theorem Covers.conflicts {held request other : LockRequest κ} (h : held.Covers request)
    (hconflicts : request.Conflicts other) : held.Conflicts other := by
  refine ⟨h.1.trans hconflicts.1, ?_⟩
  rcases h.2 with hheld | hrequest
  · exact Or.inl hheld
  · rcases hconflicts.2 with hexclusive | hother
    · rw [hrequest] at hexclusive
      cases hexclusive
    · exact Or.inr hother

end LockRequest

/-- How many of its requests each transaction has been granted, which have ended, and who waits for
each lock. -/
structure LockTable (τ κ : Type) where
  granted : τ → ℕ
  ended : τ → Bool
  queue : κ → List τ

namespace LockTable

variable {τ κ : Type} (program : τ → List (LockRequest κ))

/-- No transaction has begun. -/
def start : LockTable τ κ :=
  { granted := fun _ => 0
    ended := fun _ => false
    queue := fun _ => [] }

section State

variable (table : LockTable τ κ)

/-- The requests granted to a transaction that has not ended. -/
def held (t : τ) : List (LockRequest κ) :=
  if table.ended t then [] else (program t).take (table.granted t)

/-- What a transaction requests next. -/
def next (t : τ) : Option (LockRequest κ) :=
  if table.ended t then none else (program t)[table.granted t]?

/-- The transaction holds what it requests. -/
def Covered (t : τ) (request : LockRequest κ) : Prop :=
  ∃ own ∈ table.held program t, own.Covers request

/-- Another transaction holds what the request conflicts with. -/
def Taken (t : τ) (request : LockRequest κ) : Prop :=
  ∃ u, t ≠ u ∧ ∃ other ∈ table.held program u, other.Conflicts request

/-- One of some waiters requests what the request conflicts with. -/
def Behind (waiters : List τ) (request : LockRequest κ) : Prop :=
  ∃ u ∈ waiters, ∃ other, table.next program u = some other ∧ other.Conflicts request

def grant [DecidableEq τ] (t : τ) : LockTable τ κ :=
  { table with granted := Function.update table.granted t (table.granted t + 1) }

def setQueue [DecidableEq κ] (lock : κ) (waiters : List τ) : LockTable τ κ :=
  { table with queue := Function.update table.queue lock waiters }

/-- A transaction ends: its locks are released, and it waits for none. -/
def finish [DecidableEq τ] (t : τ) : LockTable τ κ :=
  { table with
    ended := Function.update table.ended t true
    queue := fun lock => (table.queue lock).filter (· ≠ t) }

end State

/-- One step of the lock table. A transaction may end at any time. -/
inductive Step [DecidableEq τ] [DecidableEq κ] : LockTable τ κ → LockTable τ κ → Prop
  | grant {table : LockTable τ κ} {t : τ} {request : LockRequest κ} :
      table.next program t = some request → t ∉ table.queue request.lock →
      table.Covered program t request ∨ ¬ table.Taken program t request
        ∧ ¬ table.Behind program (table.queue request.lock) request →
      Step table (table.grant t)
  | wait {table : LockTable τ κ} {t : τ} {request : LockRequest κ} :
      table.next program t = some request → t ∉ table.queue request.lock →
      ¬ table.Covered program t request →
      table.Taken program t request
        ∨ table.Behind program (table.queue request.lock) request →
      Step table (table.setQueue request.lock (table.queue request.lock ++ [t]))
  | wake {table : LockTable τ κ} {t : τ} {request : LockRequest κ} {front back : List τ} :
      table.next program t = some request → table.queue request.lock = front ++ t :: back →
      ¬ table.Taken program t request → ¬ table.Behind program front request →
      Step table ((table.setQueue request.lock (front ++ back)).grant t)
  | finish {table : LockTable τ κ} (t : τ) : Step table (table.finish t)

/-- The tables reached from the one where no transaction has begun. -/
def Reachable [DecidableEq τ] [DecidableEq κ] (table : LockTable τ κ) : Prop :=
  Relation.ReflTransGen (Step program) start table

/-- A transaction waits for a lock another one holds. -/
def WaitsForHolder (table : LockTable τ κ) (t u : τ) : Prop :=
  ∃ request, table.next program t = some request ∧ t ∈ table.queue request.lock
    ∧ t ≠ u ∧ ∃ other ∈ table.held program u, other.Conflicts request

/-- A transaction waits for another one, which holds the lock or waits for it ahead. -/
def WaitsFor (table : LockTable τ κ) (t u : τ) : Prop :=
  table.WaitsForHolder program t u
    ∨ ∃ request front back, table.next program t = some request
        ∧ table.queue request.lock = front ++ t :: back ∧ u ∈ front
        ∧ ∃ other, table.next program u = some other ∧ other.Conflicts request

/-! ## Sound tables -/

/-- Who waits is in the queue of what it requests, and granted requests do not conflict. -/
structure Sound (table : LockTable τ κ) : Prop where
  waiting : ∀ lock, ∀ t ∈ table.queue lock, ∃ request, table.next program t = some request
    ∧ request.lock = lock ∧ ¬ table.Covered program t request
  nodup : ∀ lock, (table.queue lock).Nodup
  compatible : ∀ {t u}, t ≠ u → ∀ own ∈ table.held program t, ∀ other ∈ table.held program u,
    ¬ own.Conflicts other

variable {program} {table : LockTable τ κ} {t u : τ} {request : LockRequest κ}

section Moves

theorem granted_grant_self [DecidableEq τ] : (table.grant t).granted t = table.granted t + 1 :=
  Function.update_self t _ _

theorem granted_grant_of_ne [DecidableEq τ] (h : u ≠ t) :
    (table.grant t).granted u = table.granted u :=
  Function.update_of_ne h _ _

theorem held_grant_of_ne [DecidableEq τ] (h : u ≠ t) :
    (table.grant t).held program u = table.held program u := by
  rw [held, held, granted_grant_of_ne h]
  rfl

theorem next_grant_of_ne [DecidableEq τ] (h : u ≠ t) :
    (table.grant t).next program u = table.next program u := by
  rw [next, next, granted_grant_of_ne h]
  rfl

/-- A granted request is held. -/
theorem held_grant [DecidableEq τ] (h : table.next program t = some request) :
    (table.grant t).held program t = table.held program t ++ [request] := by
  rw [next] at h
  rw [held, held, granted_grant_self]
  cases hended : table.ended t with
  | true =>
      rw [hended] at h
      cases h
  | false =>
      rw [hended] at h
      have hended' : (table.grant t).ended t = false := hended
      rw [if_neg Bool.false_ne_true] at h
      rw [hended', if_neg Bool.false_ne_true, if_neg Bool.false_ne_true, List.take_add_one, h]
      rfl

theorem queue_setQueue_self [DecidableEq κ] {lock : κ} {waiters : List τ} :
    (table.setQueue lock waiters).queue lock = waiters :=
  Function.update_self lock _ _

theorem queue_setQueue_of_ne [DecidableEq κ] {lock other : κ} {waiters : List τ}
    (h : other ≠ lock) :
    (table.setQueue lock waiters).queue other = table.queue other :=
  Function.update_of_ne h _ _

theorem ended_finish_of_ne [DecidableEq τ] (h : u ≠ t) : (table.finish t).ended u = table.ended u :=
  Function.update_of_ne h _ _

theorem held_finish_of_ne [DecidableEq τ] (h : u ≠ t) :
    (table.finish t).held program u = table.held program u := by
  rw [held, held, ended_finish_of_ne h]
  rfl

theorem next_finish_of_ne [DecidableEq τ] (h : u ≠ t) :
    (table.finish t).next program u = table.next program u := by
  rw [next, next, ended_finish_of_ne h]
  rfl

theorem held_finish_self [DecidableEq τ] : (table.finish t).held program t = [] :=
  if_pos (Function.update_self t _ _)

end Moves

section Preserved

/-- Who waits for a lock waits for no other. -/
theorem Sound.lock_eq (h : table.Sound program) (hnext : table.next program t = some request)
    {lock : κ} (hmem : t ∈ table.queue lock) : lock = request.lock := by
  obtain ⟨found, hfound, hlock, -⟩ := h.waiting lock t hmem
  rw [hnext] at hfound
  cases hfound
  exact hlock.symm

/-- The transaction waits nowhere, and its next request is granted. -/
theorem Sound.grant [DecidableEq τ] (h : table.Sound program)
    (hnext : table.next program t = some request)
    (hqueue : ∀ lock, t ∉ table.queue lock)
    (hgranted : table.Covered program t request ∨ ¬ table.Taken program t request) :
    (table.grant t).Sound program where
  waiting := by
    intro lock u hmem
    have hne : u ≠ t := by
      rintro rfl
      exact hqueue lock hmem
    obtain ⟨found, hfound, hlock, hnew⟩ := h.waiting lock u hmem
    refine ⟨found, by rw [next_grant_of_ne hne]; exact hfound, hlock, ?_⟩
    rw [Covered, held_grant_of_ne hne]
    exact hnew
  nodup := h.nodup
  compatible := by
    -- the granted request conflicts with nothing another transaction holds
    have hfree : ∀ {u}, t ≠ u → ∀ other ∈ table.held program u, ¬ request.Conflicts other := by
      intro u hne other hother hconflicts
      rcases hgranted with ⟨own, hown, hcovers⟩ | hfree
      · exact h.compatible hne own hown other hother (hcovers.conflicts hconflicts)
      · exact hfree ⟨u, hne, other, hother, hconflicts.symm⟩
    intro v u hne own hown other hother hconflicts
    by_cases hv : v = t
    · subst hv
      rw [held_grant hnext] at hown
      rw [held_grant_of_ne hne.symm] at hother
      rcases List.mem_append.mp hown with hown | hown
      · exact h.compatible hne own hown other hother hconflicts
      · rw [List.mem_singleton.mp hown] at hconflicts
        exact hfree hne other hother hconflicts
    rw [held_grant_of_ne hv] at hown
    by_cases hu : u = t
    · subst hu
      rw [held_grant hnext] at hother
      rcases List.mem_append.mp hother with hother | hother
      · exact h.compatible hne own hown other hother hconflicts
      · rw [List.mem_singleton.mp hother] at hconflicts
        exact hfree hne.symm own hown hconflicts.symm
    · rw [held_grant_of_ne hu] at hother
      exact h.compatible hne own hown other hother hconflicts

theorem Sound.setQueue [DecidableEq κ] (h : table.Sound program) {lock : κ} {waiters : List τ}
    (hwaiting : ∀ t ∈ waiters, ∃ request, table.next program t = some request
      ∧ request.lock = lock ∧ ¬ table.Covered program t request)
    (hnodup : waiters.Nodup) : (table.setQueue lock waiters).Sound program where
  waiting := by
    intro other t hmem
    by_cases hother : other = lock
    · subst hother
      rw [queue_setQueue_self] at hmem
      exact hwaiting t hmem
    · rw [queue_setQueue_of_ne hother] at hmem
      exact h.waiting other t hmem
  nodup := by
    intro other
    by_cases hother : other = lock
    · subst hother
      rw [queue_setQueue_self]
      exact hnodup
    · rw [queue_setQueue_of_ne hother]
      exact h.nodup other
  compatible := h.compatible

theorem Sound.finish [DecidableEq τ] (h : table.Sound program) (t : τ) :
    (table.finish t).Sound program where
  waiting := by
    intro lock u hmem
    obtain ⟨hmem, hne⟩ := List.mem_filter.mp hmem
    have hne : u ≠ t := of_decide_eq_true hne
    obtain ⟨request, hnext, hlock, hnew⟩ := h.waiting lock u hmem
    refine ⟨request, by rw [next_finish_of_ne hne]; exact hnext, hlock, ?_⟩
    rw [Covered, held_finish_of_ne hne]
    exact hnew
  nodup := fun lock => (h.nodup lock).filter _
  compatible := by
    intro v u hne own hown other hother
    by_cases hv : v = t
    · subst hv
      rw [held_finish_self] at hown
      exact absurd hown List.not_mem_nil
    by_cases hu : u = t
    · subst hu
      rw [held_finish_self] at hother
      exact absurd hother List.not_mem_nil
    rw [held_finish_of_ne hv] at hown
    rw [held_finish_of_ne hu] at hother
    exact h.compatible hne own hown other hother

theorem Step.sound [DecidableEq τ] [DecidableEq κ] {table' : LockTable τ κ}
    (hstep : Step program table table')
    (h : table.Sound program) : table'.Sound program := by
  cases hstep with
  | grant hnext hqueue hgranted =>
      refine h.grant hnext (fun lock hmem => ?_) (hgranted.imp_right And.left)
      exact hqueue (h.lock_eq hnext hmem ▸ hmem)
  | @wait t request hnext hqueue hnew _ =>
      refine h.setQueue (fun u hmem => ?_) ?_
      · rcases List.mem_append.mp hmem with hmem | hmem
        · exact h.waiting request.lock u hmem
        · rw [List.mem_singleton.mp hmem]
          exact ⟨request, hnext, rfl, hnew⟩
      · refine List.nodup_append.mpr ⟨h.nodup _, List.nodup_singleton t, fun u hu v hv huv => ?_⟩
        rw [List.mem_singleton.mp hv] at huv
        exact hqueue (huv ▸ hu)
  | @wake t request front back hnext hsplit hfree _ =>
      have hnodup := h.nodup request.lock
      rw [hsplit] at hnodup
      have hback : (front ++ back).Nodup :=
        hnodup.sublist (List.Sublist.append_left (List.sublist_cons_self t back) front)
      have hgone : t ∉ front ++ back := (List.nodup_middle.mp hnodup).notMem
      have hqueue : (table.setQueue request.lock (front ++ back)).Sound program := by
        refine h.setQueue (fun u hmem => h.waiting request.lock u ?_) hback
        rw [hsplit]
        rcases List.mem_append.mp hmem with hmem | hmem
        · exact List.mem_append_left _ hmem
        · exact List.mem_append_right _ (List.mem_cons_of_mem t hmem)
      refine hqueue.grant hnext (fun lock hmem => ?_) (Or.inr hfree)
      by_cases hlock : lock = request.lock
      · subst hlock
        rw [queue_setQueue_self] at hmem
        exact hgone hmem
      · rw [queue_setQueue_of_ne hlock] at hmem
        exact hlock (h.lock_eq hnext hmem)
  | finish t => exact h.finish t

theorem sound_start : (start : LockTable τ κ).Sound program where
  waiting := fun _ _ h => absurd h List.not_mem_nil
  nodup := fun _ => List.nodup_nil
  compatible := by
    intro t u _ own hown
    exact absurd hown List.not_mem_nil

theorem Reachable.sound [DecidableEq τ] [DecidableEq κ] (h : Reachable program table) :
    table.Sound program := by
  induction h with
  | refl => exact sound_start
  | tail _ hstep ih => exact hstep.sound ih

end Preserved

/-! ## Ranks -/

section Ascending

variable {ρ : Type*} [Preorder ρ] {rank : κ → ρ}

/-- Each request is covered by an earlier one, or its lock ranks above the earlier locks. -/
def Ascending (rank : κ → ρ) (requests : List (LockRequest κ)) : Prop :=
  ∀ n request, requests[n]? = some request →
    (∃ own ∈ requests.take n, own.Covers request)
      ∨ ∀ own ∈ requests.take n, rank own.lock < rank request.lock

theorem ascending_nil : Ascending rank ([] : List (LockRequest κ)) := by
  intro n request h
  rw [List.getElem?_nil] at h
  cases h

theorem Ascending.append {front back : List (LockRequest κ)} (hfront : Ascending rank front)
    (hback : Ascending rank back)
    (habove : ∀ own ∈ front, ∀ request ∈ back, rank own.lock < rank request.lock) :
    Ascending rank (front ++ back) := by
  intro n request h
  rw [List.take_append]
  rcases Nat.lt_or_ge n front.length with hn | hn
  · rw [List.getElem?_append_left hn] at h
    have hzero : n - front.length = 0 := by omega
    rw [hzero, List.take_zero, List.append_nil]
    exact hfront n request h
  · rw [List.getElem?_append_right hn] at h
    rw [List.take_of_length_le hn]
    rcases hback _ request h with ⟨own, hown, hcovers⟩ | hbelow
    · exact Or.inl ⟨own, List.mem_append_right _ hown, hcovers⟩
    · refine Or.inr (fun own hown => ?_)
      rcases List.mem_append.mp hown with hown | hown
      · exact habove own hown request (List.mem_of_getElem? h)
      · exact hbelow own hown

/-- One more request. -/
theorem Ascending.concat {requests : List (LockRequest κ)} {request : LockRequest κ}
    (h : Ascending rank requests)
    (hlast : (∃ own ∈ requests, own.Covers request)
      ∨ ∀ own ∈ requests, rank own.lock < rank request.lock) :
    Ascending rank (requests ++ [request]) := by
  intro n found hfound
  rcases Nat.lt_or_ge n requests.length with hn | hn
  · rw [List.getElem?_append_left hn] at hfound
    rw [List.take_append_of_le_length (by omega)]
    exact h n found hfound
  · have hn' : n = requests.length := by
      have hlength := (List.getElem?_eq_some_iff.mp hfound).1
      rw [List.length_append, List.length_singleton] at hlength
      omega
    subst hn'
    rw [List.getElem?_append_right (Nat.le_refl _), Nat.sub_self] at hfound
    cases hfound
    rw [List.take_left]
    exact hlast

theorem ascending_of_pairwise {requests : List (LockRequest κ)}
    (h : requests.Pairwise (fun own request => rank own.lock < rank request.lock)) :
    Ascending rank requests := by
  induction requests using List.reverseRecOn with
  | nil => exact ascending_nil
  | append_singleton requests request ih =>
      obtain ⟨hrequests, -, habove⟩ := List.pairwise_append.mp h
      exact (ih hrequests).concat
        (Or.inr (fun own hown => habove own hown request (List.mem_singleton_self request)))

/-- `u` waits for a lock of higher rank, or ahead of `t` for the same one. -/
def Precedes [DecidableEq τ] (program : τ → List (LockRequest κ)) (rank : κ → ρ)
    (table : LockTable τ κ)
    (t u : τ) : Prop :=
  ∃ request request', table.next program t = some request ∧ table.next program u = some request'
    ∧ (rank request.lock < rank request'.lock ∨ request.lock = request'.lock
      ∧ (table.queue request.lock).idxOf u < (table.queue request.lock).idxOf t)

theorem Precedes.trans [DecidableEq τ] {v : τ} (h : table.Precedes program rank t u)
    (h' : table.Precedes program rank u v) : table.Precedes program rank t v := by
  obtain ⟨request, request', hnext, hnext', hbefore⟩ := h
  obtain ⟨found, request'', hfound, hnext'', hbefore'⟩ := h'
  rw [hnext'] at hfound
  cases hfound
  refine ⟨request, request'', hnext, hnext'', ?_⟩
  rcases hbefore with hrank | ⟨hlock, hidx⟩
  · rcases hbefore' with hrank' | ⟨hlock', -⟩
    · exact Or.inl (hrank.trans hrank')
    · exact Or.inl (hlock' ▸ hrank)
  · rcases hbefore' with hrank' | ⟨hlock', hidx'⟩
    · exact Or.inl (hlock ▸ hrank')
    · refine Or.inr ⟨hlock.trans hlock', ?_⟩
      rw [← hlock] at hidx'
      exact hidx'.trans hidx

theorem Precedes.irrefl [DecidableEq τ] : ¬ table.Precedes program rank t t := by
  rintro ⟨request, request', hnext, hnext', hbefore⟩
  rw [hnext] at hnext'
  cases hnext'
  rcases hbefore with hrank | ⟨-, hidx⟩
  · exact lt_irrefl _ hrank
  · exact Nat.lt_irrefl _ hidx

/-- Who waits for another is in the queue of its request. -/
theorem WaitsFor.queued (h : table.WaitsFor program t u) :
    ∃ request, table.next program t = some request ∧ t ∈ table.queue request.lock := by
  rcases h with ⟨request, hnext, hmem, -⟩ | ⟨request, front, back, hnext, hsplit, -⟩
  · exact ⟨request, hnext, hmem⟩
  · exact ⟨request, hnext, by rw [hsplit]; exact List.mem_append_right _ List.mem_cons_self⟩

/-- A waiting transaction requests a lock that ranks above all it holds. -/
theorem Sound.above (h : table.Sound program) (hascending : Ascending rank (program t))
    (hnext : table.next program t = some request) (hmem : t ∈ table.queue request.lock) :
    ∀ own ∈ table.held program t, rank own.lock < rank request.lock := by
  obtain ⟨found, hfound, -, hnew⟩ := h.waiting request.lock t hmem
  rw [hnext] at hfound
  cases hfound
  rw [Covered] at hnew
  cases hended : table.ended t with
  | true => simp [held, hended]
  | false =>
      have hheld : table.held program t = (program t).take (table.granted t) := by
        rw [held, hended, if_neg Bool.false_ne_true]
      have hget : (program t)[table.granted t]? = some request := by
        rw [next, hended, if_neg Bool.false_ne_true] at hnext
        exact hnext
      rw [hheld] at hnew ⊢
      exact (hascending _ request hget).resolve_left hnew

/-- Waiting goes up the ranks, and forward within a queue. -/
theorem Sound.precedes [DecidableEq τ] (h : table.Sound program)
    (hascending : Ascending rank (program u))
    (hwaits : table.WaitsFor program t u) {request' : LockRequest κ}
    (hnext' : table.next program u = some request') (hmem' : u ∈ table.queue request'.lock) :
    table.Precedes program rank t u := by
  rcases hwaits with ⟨request, hnext, -, -, other, hother, hconflicts⟩
      | ⟨request, front, back, hnext, hsplit, hfront, other, hother, hconflicts⟩
  · -- `u` holds the lock
    refine ⟨request, request', hnext, hnext', Or.inl ?_⟩
    rw [← hconflicts.1]
    exact h.above hascending hnext' hmem' other hother
  · -- `u` is ahead in the queue
    rw [hnext'] at hother
    cases hother
    refine ⟨request, request', hnext, hnext', Or.inr ⟨hconflicts.1.symm, ?_⟩⟩
    have hnodup := h.nodup request.lock
    rw [hsplit] at hnodup ⊢
    have hgone : t ∉ front := fun hmem =>
      (List.nodup_middle.mp hnodup).notMem (List.mem_append_left back hmem)
    rw [List.idxOf_append_of_mem hfront, List.idxOf_append_of_notMem hgone, List.idxOf_cons_self]
    exact Nat.lt_of_lt_of_le (List.idxOf_lt_length_of_mem hfront) (Nat.le_add_right _ _)

/-- **No deadlock along a rank**: transactions that request their locks in the order of one rank
never wait for each other in a cycle. -/
theorem acyclic_of_ascending [DecidableEq τ] [DecidableEq κ]
    (hascending : ∀ t, Ascending rank (program t))
    (h : Reachable program table) : ¬ Relation.TransGen (table.WaitsFor program) t t := by
  have hsound := h.sound
  -- along a path whose end waits as well, every step precedes
  have hpath : ∀ {t u}, Relation.TransGen (table.WaitsFor program) t u →
      ∀ {request}, table.next program u = some request → u ∈ table.queue request.lock →
        table.Precedes program rank t u := by
    intro t u hpath request hnext hmem
    induction hpath using Relation.TransGen.head_induction_on with
    | single hwaits => exact hsound.precedes (hascending _) hwaits hnext hmem
    | head hwaits hrest ih =>
        obtain ⟨v, hwaits', -⟩ := Relation.TransGen.head'_iff.mp hrest
        obtain ⟨request', hnext', hmem'⟩ := hwaits'.queued
        exact (hsound.precedes (hascending _) hwaits hnext' hmem').trans ih
  intro hcycle
  obtain ⟨v, hwaits, -⟩ := Relation.TransGen.head'_iff.mp hcycle
  obtain ⟨request, hnext, hmem⟩ := hwaits.queued
  exact (hpath hcycle hnext hmem).irrefl

end Ascending

end LockTable

end Foundations
