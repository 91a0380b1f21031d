import CalaLedger.Foundations.LockTable
import Mathlib.Data.Fintype.Order

/-! # Crossing lock orders

When transactions of a lock table can wait for each other's held locks in a cycle: exactly when
finitely many of them cross (`cycle_iff_crossing`). Each may be granted a beginning of its requests
beside the others', and then requests what another has been granted. Where the only conflicts are of
exclusive locks, the sequences of these locks decide it (`exists_crossing_iff`). -/

namespace Foundations

namespace LockTable

variable {τ κ : Type} {program : τ → List (LockRequest κ)} {table : LockTable τ κ} {t u : τ}

section Finite

variable {α : Type*} {r : α → α → Prop}

/-- The elements of a path, each with a successor among them or at its end. -/
theorem exists_path_elements [DecidableEq α] {a b : α} (h : Relation.TransGen r a b) :
    ∃ s : Finset α, a ∈ s ∧ ∀ x ∈ s, ∃ y, r x y ∧ (y ∈ s ∨ y = b) := by
  induction h using Relation.TransGen.head_induction_on with
  | @single a hstep =>
      refine ⟨{a}, Finset.mem_singleton_self a, fun x hx => ?_⟩
      rw [Finset.mem_singleton.mp hx]
      exact ⟨b, hstep, Or.inr rfl⟩
  | @head a c hstep _ ih =>
      obtain ⟨s, hc, hs⟩ := ih
      refine ⟨insert a s, Finset.mem_insert_self a s, fun x hx => ?_⟩
      rcases Finset.mem_insert.mp hx with rfl | hx
      · exact ⟨c, hstep, Or.inl (Finset.mem_insert_of_mem hc)⟩
      · obtain ⟨y, hy, hmem⟩ := hs x hx
        exact ⟨y, hy, hmem.imp_left Finset.mem_insert_of_mem⟩

/-- Where every element of a finite set has a successor in it, some element is on a cycle. -/
theorem exists_cycle {s : Finset α} (hne : s.Nonempty) (h : ∀ x ∈ s, ∃ y ∈ s, r x y) :
    ∃ x ∈ s, Relation.TransGen r x x := by
  by_contra hno
  let after (x y : s) : Prop := Relation.TransGen r y.1 x.1
  have htrans : IsTrans s after := ⟨fun _ _ _ hxy hyz => hyz.trans hxy⟩
  have hirrefl : Std.Irrefl after := ⟨fun x hx => hno ⟨x.1, x.2, hx⟩⟩
  have hwf : WellFounded after := Finite.wellFounded_of_trans_of_irrefl after
  obtain ⟨x, hx⟩ := hne
  -- a last element would have a successor
  obtain ⟨last, -, hlast⟩ := hwf.has_min Set.univ ⟨⟨x, hx⟩, trivial⟩
  obtain ⟨y, hy, hstep⟩ := h last.1 last.2
  exact hlast ⟨y, hy⟩ trivial (Relation.TransGen.single hstep)

end Finite

/-- Finitely many transactions that have each been granted a beginning of their requests, where what
each requests next conflicts with the beginning of another. -/
structure Crossing (program : τ → List (LockRequest κ)) (group : Finset τ) (cut : τ → ℕ) :
    Prop where
  nonempty : group.Nonempty
  compatible : ∀ {t u}, t ∈ group → u ∈ group → t ≠ u → ∀ own ∈ (program t).take (cut t),
    ∀ other ∈ (program u).take (cut u), ¬ own.Conflicts other
  blocked : ∀ t ∈ group, ∃ request, (program t)[cut t]? = some request
    ∧ ∃ u ∈ group, t ≠ u ∧ ∃ other ∈ (program u).take (cut u), other.Conflicts request

section Crossing

variable {group : Finset τ} {cut : τ → ℕ}

/-- Who waits has not ended. -/
theorem WaitsForHolder.ended (h : table.WaitsForHolder program t u) : table.ended t = false := by
  obtain ⟨request, hnext, -⟩ := h
  rw [next] at hnext
  cases hended : table.ended t with
  | true => simp [hended] at hnext
  | false => rfl

theorem held_of_running (h : table.ended t = false) :
    table.held program t = (program t).take (table.granted t) := by
  rw [held, h, if_neg Bool.false_ne_true]

theorem next_of_running (h : table.ended t = false) :
    table.next program t = (program t)[table.granted t]? := by
  rw [next, h, if_neg Bool.false_ne_true]

/-- The transactions of a cycle cross where they stand. -/
theorem Sound.crossing [DecidableEq τ] (h : table.Sound program)
    (hcycle : Relation.TransGen (table.WaitsForHolder program) t t) :
    ∃ group, Crossing program group table.granted := by
  obtain ⟨group, ht, hgroup⟩ := exists_path_elements hcycle
  have hnext : ∀ v ∈ group, ∃ w ∈ group, table.WaitsForHolder program v w := by
    intro v hv
    obtain ⟨w, hwaits, hw | rfl⟩ := hgroup v hv
    · exact ⟨w, hw, hwaits⟩
    · exact ⟨w, ht, hwaits⟩
  have hrunning : ∀ v ∈ group, table.ended v = false := by
    intro v hv
    obtain ⟨w, -, hwaits⟩ := hnext v hv
    exact hwaits.ended
  refine ⟨group, ⟨t, ht⟩, ?_, ?_⟩
  · intro v w hv hw hne own hown other hother
    rw [← held_of_running (hrunning v hv)] at hown
    rw [← held_of_running (hrunning w hw)] at hother
    exact h.compatible hne own hown other hother
  · intro v hv
    obtain ⟨w, hw, request, hrequest, -, hne, other, hother, hconflicts⟩ := hnext v hv
    rw [next_of_running (hrunning v hv)] at hrequest
    rw [held_of_running (hrunning w hw)] at hother
    exact ⟨request, hrequest, w, hw, hne, other, hother, hconflicts⟩

/-- Every transaction has been granted some requests, and none waits. -/
def running (counts : τ → ℕ) : LockTable τ κ :=
  { start with granted := counts }

theorem grant_running [DecidableEq τ] (counts : τ → ℕ) (t : τ) :
    (running counts : LockTable τ κ).grant t
      = running (Function.update counts t (counts t + 1)) := rfl

/-- A transaction that has begun nothing is granted some requests that conflict with no other's. -/
theorem Reachable.grants [DecidableEq τ] [DecidableEq κ] {counts : τ → ℕ}
    (h : Reachable program (running counts)) (ht : counts t = 0) {n : ℕ}
    (hn : n ≤ (program t).length)
    (hfree : ∀ u, t ≠ u → ∀ own ∈ (program t).take n, ∀ other ∈ (program u).take (counts u),
      ¬ own.Conflicts other) :
    Reachable program (running (Function.update counts t n)) := by
  induction n with
  | zero =>
      have hzero : Function.update counts t 0 = counts := by rw [← ht, Function.update_eq_self]
      rw [hzero]
      exact h
  | succ n ih =>
      have hshorter : (program t).take n ⊆ (program t).take (n + 1) :=
        (List.take_prefix_take_left (Nat.le_succ n)).subset
      have hrest := ih (by omega) (fun u hne own hown => hfree u hne own (hshorter hown))
      have hget : (program t)[n]? = some (program t)[n] := List.getElem?_eq_getElem hn
      have hnext : (running (Function.update counts t n)).next program t
          = some (program t)[n] := by
        show (program t)[Function.update counts t n t]? = _
        rw [Function.update_self, hget]
      have hstep := Step.grant hnext List.not_mem_nil (Or.inr ⟨?_, ?_⟩)
      · rw [grant_running, Function.update_self, Function.update_idem] at hstep
        exact hrest.tail hstep
      · rintro ⟨u, hne, other, hother, hconflicts⟩
        have hother : other ∈ (program u).take (Function.update counts t n u) := hother
        rw [Function.update_of_ne hne.symm] at hother
        have hown : (program t)[n] ∈ (program t).take (n + 1) := by
          rw [List.take_add_one, hget]
          exact List.mem_append_right _ (List.mem_singleton_self _)
        exact hfree u hne _ hown other hother hconflicts.symm
      · rintro ⟨u, hmem, -⟩
        exact absurd hmem List.not_mem_nil

/-- The beginnings of a crossing are granted one after the other. -/
theorem Crossing.reachable_running [DecidableEq τ] [DecidableEq κ]
    (h : Crossing program group cut) (s : Finset τ) (hs : s ⊆ group) :
    Reachable program (running (fun t => if t ∈ s then cut t else 0)) := by
  induction s using Finset.induction with
  | empty => exact Relation.ReflTransGen.refl
  | @insert t s ht ih =>
      obtain ⟨htgroup, hs⟩ := Finset.insert_subset_iff.mp hs
      obtain ⟨request, hrequest, -⟩ := h.blocked t htgroup
      have hlength : cut t < (program t).length := (List.getElem?_eq_some_iff.mp hrequest).1
      have hall : (fun u => if u ∈ insert t s then cut u else 0)
          = Function.update (fun u => if u ∈ s then cut u else 0) t (cut t) := by
        funext u
        rcases eq_or_ne u t with rfl | hne
        · rw [if_pos (Finset.mem_insert_self u s), Function.update_self]
        · simp [Finset.mem_insert, hne]
      rw [hall]
      refine (ih hs).grants (if_neg ht) hlength.le (fun u hne own hown other hother => ?_)
      split at hother
      · exact h.compatible htgroup (hs ‹_›) hne own hown other hother
      · rw [List.take_zero] at hother
        exact absurd hother List.not_mem_nil

/-- The table where the transactions of a crossing have their beginnings, with some queues. -/
def Crossing.waiting (group : Finset τ) [DecidableEq τ] (cut : τ → ℕ) (queue : κ → List τ) :
    LockTable τ κ :=
  { granted := fun t => if t ∈ group then cut t else 0
    ended := fun _ => false
    queue := queue }

/-- In it, everyone requests what another has taken. -/
theorem Crossing.taken [DecidableEq τ] (h : Crossing program group cut) (queue : κ → List τ)
    (ht : t ∈ group) :
    ∃ request, (waiting group cut queue).next program t = some request
      ∧ ∃ u ∈ group, t ≠ u ∧ ∃ other ∈ (waiting group cut queue).held program u,
        other.Conflicts request := by
  obtain ⟨request, hrequest, u, hu, hne, other, hother, hconflicts⟩ := h.blocked t ht
  refine ⟨request, ?_, u, hu, hne, other, ?_, hconflicts⟩
  · show (program t)[if t ∈ group then cut t else 0]? = some request
    rw [if_pos ht]
    exact hrequest
  · show other ∈ (program u).take (if u ∈ group then cut u else 0)
    rw [if_pos hu]
    exact hother

/-- The transactions of a crossing queue up, one after the other. -/
theorem Crossing.reachable_waiting [DecidableEq τ] [DecidableEq κ]
    (h : Crossing program group cut) (s : Finset τ) (hs : s ⊆ group) :
    ∃ queue, Reachable program (waiting group cut queue)
      ∧ (∀ t ∈ s, ∀ {request}, (waiting group cut queue).next program t = some request →
        t ∈ queue request.lock)
      ∧ ∀ t ∉ s, ∀ lock, t ∉ queue lock := by
  induction s using Finset.induction with
  | empty =>
      exact ⟨fun _ => [], h.reachable_running group subset_rfl,
        fun t ht => absurd ht (Finset.notMem_empty t), fun _ _ _ => List.not_mem_nil⟩
  | @insert t s ht ih =>
      obtain ⟨htgroup, hs⟩ := Finset.insert_subset_iff.mp hs
      obtain ⟨queue, hreachable, hwaiting, hothers⟩ := ih hs
      obtain ⟨request, hnext, u, hu, hne, other, hother, hconflicts⟩ := h.taken queue htgroup
      have hnew : ¬ (waiting group cut queue).Covered program t request := by
        rintro ⟨own, hown, hcovers⟩
        exact hreachable.sound.compatible hne own hown other hother
          (hcovers.conflicts hconflicts.symm)
      have hstep := Step.wait hnext (hothers t ht _) hnew
        (Or.inl ⟨u, hne, other, hother, hconflicts⟩)
      refine ⟨Function.update queue request.lock (queue request.lock ++ [t]),
        hreachable.tail hstep, ?_, ?_⟩
      · intro v hv request' hnext'
        rcases Finset.mem_insert.mp hv with rfl | hv
        · have heq : request' = request := Option.some.inj (hnext'.symm.trans hnext)
          rw [heq, Function.update_self]
          exact List.mem_append_right _ (List.mem_singleton_self v)
        · have hmem := hwaiting v hv hnext'
          by_cases hlock : request'.lock = request.lock
          · rw [hlock, Function.update_self]
            exact List.mem_append_left _ (hlock ▸ hmem)
          · rw [Function.update_of_ne hlock]
            exact hmem
      · intro v hv lock hmem
        obtain ⟨hvt, hvs⟩ := not_or.mp (fun hor => hv (Finset.mem_insert.mpr hor))
        by_cases hlock : lock = request.lock
        · rw [hlock, Function.update_self] at hmem
          rcases List.mem_append.mp hmem with hmem | hmem
          · exact hothers v hvs _ hmem
          · exact hvt (List.mem_singleton.mp hmem)
        · rw [Function.update_of_ne hlock] at hmem
          exact hothers v hvs lock hmem

/-- **A cycle of held locks is reachable exactly when finitely many transactions cross.** -/
theorem cycle_iff_crossing [DecidableEq τ] [DecidableEq κ] :
    (∃ table, Reachable program table
        ∧ ∃ t, Relation.TransGen (table.WaitsForHolder program) t t)
      ↔ ∃ group cut, Crossing program group cut := by
  constructor
  · rintro ⟨table, hreachable, t, hcycle⟩
    obtain ⟨group, hcrossing⟩ := hreachable.sound.crossing hcycle
    exact ⟨group, table.granted, hcrossing⟩
  · rintro ⟨group, cut, h⟩
    obtain ⟨queue, hreachable, hwaiting, -⟩ := h.reachable_waiting group subset_rfl
    refine ⟨_, hreachable, ?_⟩
    have hnext : ∀ t ∈ group, ∃ u ∈ group,
        (Crossing.waiting group cut queue).WaitsForHolder program t u := by
      intro t ht
      obtain ⟨request, hnext, u, hu, hne, htaken⟩ := h.taken queue ht
      exact ⟨u, hu, request, hnext, hwaiting t ht hnext, hne, htaken⟩
    obtain ⟨t, -, hcycle⟩ := exists_cycle h.nonempty hnext
    exact ⟨t, hcycle⟩

end Crossing

/-! ## Exclusive locks -/

/-- Finitely many transactions whose exclusive locks begin disjointly, where what each requests next
is in the beginning of another. -/
structure Interlocked {η : Type} (locks : τ → List η) (group : Finset τ) (cut : τ → ℕ) : Prop where
  nonempty : group.Nonempty
  disjoint : ∀ {t u}, t ∈ group → u ∈ group → t ≠ u →
    ((locks t).take (cut t)).Disjoint ((locks u).take (cut u))
  blocked : ∀ t ∈ group, ∃ lock, (locks t)[cut t]? = some lock
    ∧ ∃ u ∈ group, t ≠ u ∧ lock ∈ (locks u).take (cut u)

section Interlocked

variable {η : Type} {exclusive : LockRequest κ → Option η} {group : Finset τ}

/-- The place of an exclusive lock among the requests. -/
theorem exists_request {requests : List (LockRequest κ)} {n : ℕ} {lock : η}
    (h : (requests.filterMap exclusive)[n]? = some lock) :
    ∃ cut request, requests[cut]? = some request ∧ exclusive request = some lock
      ∧ (requests.take cut).filterMap exclusive = (requests.filterMap exclusive).take n := by
  induction requests generalizing n with
  | nil => cases h
  | cons first requests ih =>
      cases hfirst : exclusive first with
      | none =>
          rw [List.filterMap_cons_none hfirst] at h ⊢
          obtain ⟨cut, request, hget, hlock, htake⟩ := ih h
          refine ⟨cut + 1, request, hget, hlock, ?_⟩
          rw [List.take_succ_cons, List.filterMap_cons_none hfirst]
          exact htake
      | some found =>
          rw [List.filterMap_cons_some hfirst] at h ⊢
          cases n with
          | zero =>
              cases h
              exact ⟨0, first, rfl, hfirst, rfl⟩
          | succ n =>
              obtain ⟨cut, request, hget, hlock, htake⟩ := ih h
              refine ⟨cut + 1, request, hget, hlock, ?_⟩
              rw [List.take_succ_cons, List.take_succ_cons, List.filterMap_cons_some hfirst, htake]

/-- The exclusive locks of a beginning of the requests are a beginning of the exclusive locks. -/
theorem filterMap_take (requests : List (LockRequest κ)) (cut : ℕ) :
    (requests.filterMap exclusive).take ((requests.take cut).filterMap exclusive).length
      = (requests.take cut).filterMap exclusive := by
  have hsplit : requests.filterMap exclusive
      = (requests.take cut).filterMap exclusive ++ (requests.drop cut).filterMap exclusive := by
    rw [← List.filterMap_append, List.take_append_drop]
  rw [hsplit, List.take_left]

/-- The exclusive lock requested behind a beginning of the requests. -/
theorem getElem?_filterMap {requests : List (LockRequest κ)} {cut : ℕ} {request : LockRequest κ}
    {lock : η} (hget : requests[cut]? = some request) (hlock : exclusive request = some lock) :
    (requests.filterMap exclusive)[((requests.take cut).filterMap exclusive).length]?
      = some lock := by
  obtain ⟨hcut, rfl⟩ := List.getElem?_eq_some_iff.mp hget
  have hsplit : requests.filterMap exclusive
      = (requests.take cut).filterMap exclusive ++ (requests.drop cut).filterMap exclusive := by
    rw [← List.filterMap_append, List.take_append_drop]
  rw [hsplit, List.getElem?_append_right (Nat.le_refl _), Nat.sub_self,
    List.drop_eq_getElem_cons hcut, List.filterMap_cons_some hlock]
  rfl

/-- **Where only exclusive locks conflict**, transactions cross exactly when their sequences of
exclusive locks do. -/
theorem exists_crossing_iff
    (hconflicts : ∀ t u, ∀ own ∈ program t, ∀ other ∈ program u,
      own.Conflicts other ↔ ∃ lock, exclusive own = some lock ∧ exclusive other = some lock) :
    (∃ cut, Crossing program group cut)
      ↔ ∃ cut, Interlocked (fun t => (program t).filterMap exclusive) group cut := by
  constructor
  · rintro ⟨cut, h⟩
    refine ⟨fun t => (((program t).take (cut t)).filterMap exclusive).length, h.nonempty, ?_, ?_⟩
    · intro t u ht hu hne lock hown hother
      rw [filterMap_take] at hown hother
      obtain ⟨own, hown, hlock⟩ := List.mem_filterMap.mp hown
      obtain ⟨other, hother, hlock'⟩ := List.mem_filterMap.mp hother
      refine h.compatible ht hu hne own hown other hother ?_
      exact (hconflicts t u own (List.mem_of_mem_take hown) other
        (List.mem_of_mem_take hother)).mpr ⟨lock, hlock, hlock'⟩
    · intro t ht
      obtain ⟨request, hget, u, hu, hne, other, hother, hconflict⟩ := h.blocked t ht
      obtain ⟨lock, hlock', hlock⟩ := (hconflicts u t other (List.mem_of_mem_take hother) request
        (List.mem_of_getElem? hget)).mp hconflict
      refine ⟨lock, getElem?_filterMap hget hlock, u, hu, hne, ?_⟩
      rw [filterMap_take]
      exact List.mem_filterMap.mpr ⟨other, hother, hlock'⟩
  · rintro ⟨cut, h⟩
    have hplace : ∀ t, ∃ place, t ∈ group → ∃ request lock, (program t)[place]? = some request
        ∧ exclusive request = some lock
        ∧ (((program t).filterMap exclusive)[cut t]? = some lock)
        ∧ ((program t).take place).filterMap exclusive
          = ((program t).filterMap exclusive).take (cut t) := by
      intro t
      by_cases ht : t ∈ group
      · obtain ⟨lock, hget, -⟩ := h.blocked t ht
        obtain ⟨place, request, hrequest, hlock, htake⟩ := exists_request hget
        exact ⟨place, fun _ => ⟨request, lock, hrequest, hlock, hget, htake⟩⟩
      · exact ⟨0, fun hmem => absurd hmem ht⟩
    obtain ⟨place, hplace⟩ := Classical.axiomOfChoice hplace
    refine ⟨place, h.nonempty, ?_, ?_⟩
    · intro t u ht hu hne own hown other hother hconflict
      obtain ⟨lock, hlock, hlock'⟩ := (hconflicts t u own (List.mem_of_mem_take hown) other
        (List.mem_of_mem_take hother)).mp hconflict
      obtain ⟨-, -, -, -, -, htake⟩ := hplace t ht
      obtain ⟨-, -, -, -, -, htake'⟩ := hplace u hu
      refine h.disjoint ht hu hne (a := lock) ?_ ?_
      · rw [← htake]
        exact List.mem_filterMap.mpr ⟨own, hown, hlock⟩
      · rw [← htake']
        exact List.mem_filterMap.mpr ⟨other, hother, hlock'⟩
    · intro t ht
      obtain ⟨request, lock, hrequest, hlock, hget, -⟩ := hplace t ht
      obtain ⟨lock', hget', u, hu, hne, hmem⟩ := h.blocked t ht
      rw [hget] at hget'
      cases hget'
      obtain ⟨-, -, -, -, -, htake⟩ := hplace u hu
      rw [← htake] at hmem
      obtain ⟨other, hother, hlock'⟩ := List.mem_filterMap.mp hmem
      refine ⟨request, hrequest, u, hu, hne, other, hother, ?_⟩
      exact (hconflicts u t other (List.mem_of_mem_take hother) request
        (List.mem_of_getElem? hrequest)).mpr ⟨lock, hlock', hlock⟩

end Interlocked

end LockTable

end Foundations
