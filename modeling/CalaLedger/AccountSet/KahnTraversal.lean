import CalaLedger.AccountSet.GraphValidation

/-! # The Kahn pass

`SetDag::traverse` run on the index of a list of edges never panics and always ends. It orders the
sets topologically, lists all of them exactly when the edges are acyclic, and then measures the depth
of the graph (`traverse_spec`). -/

namespace CalaLedger

open Foundations Arrow

namespace SetDag

/-! ## The index -/

/-- What `SetDag::new` and `add_isolated` build of a list of edges. -/
structure Indexes (dag : SetDag) (edges : List SetMembership) : Prop where
  children : ∀ v, dag.children v = (edgesFrom edges v).map dst
  indegree : ∀ v ∈ dag.indegree, dag.indegree.lookup v = some ((edges.map dst).count v)
  src_mem : ∀ e ∈ edges, src e ∈ dag.indegree
  dst_mem : ∀ e ∈ edges, dst e ∈ dag.indegree

variable {dag : SetDag} {edges : List SetMembership}

theorem indexes_nil : Indexes ⟨∅, ∅⟩ [] where
  children := fun _ => rfl
  indegree := fun v hv => absurd hv (AList.notMem_empty v)
  src_mem := nofun
  dst_mem := nofun

theorem Indexes.count_of_notMem (h : Indexes dag edges) {v : AccountSetId}
    (hv : v ∉ dag.indegree) : (edges.map dst).count v = 0 := by
  refine List.count_eq_zero.mpr (fun hmem => ?_)
  obtain ⟨e, he, rfl⟩ := List.mem_map.mp hmem
  exact hv (h.dst_mem e he)

theorem Indexes.getD_lookup (h : Indexes dag edges) (v : AccountSetId) :
    (dag.indegree.lookup v).getD 0 = (edges.map dst).count v := by
  by_cases hv : v ∈ dag.indegree
  · rw [h.indegree v hv, Option.getD_some]
  · rw [AList.lookup_eq_none.mpr hv, Option.getD_none, h.count_of_notMem hv]

theorem Indexes.addEdge (h : Indexes dag edges) (e : SetMembership) :
    Indexes (dag.addEdge e) (edges ++ [e]) where
  children := by
    intro v
    have hv := h.children v
    unfold SetDag.children at hv ⊢
    rw [SetDag.addEdge, lookup_upsert, edgesFrom, List.filter_append, List.map_append]
    by_cases heq : v = e.accountSetId
    · subst heq
      rw [if_pos rfl, Option.getD_some, hv, List.filter_cons_of_pos (by simp [src])]
      rfl
    · rw [if_neg heq, hv, List.filter_cons_of_neg (by simpa [src] using Ne.symm heq)]
      simp [edgesFrom]
  indegree := by
    intro v _
    have hcount : ((edges ++ [e]).map dst).count v
        = (edges.map dst).count v + if v = e.memberAccountSetId then 1 else 0 := by
      rw [List.map_append, List.count_append]
      by_cases heq : v = e.memberAccountSetId
      · subst heq
        simp [dst]
      · simp [dst, heq, Ne.symm heq]
    rw [hcount, SetDag.addEdge, lookup_upsert, lookup_upsert, lookup_upsert]
    rename_i hmem
    rw [SetDag.addEdge, mem_upsert, mem_upsert] at hmem
    by_cases hsrc : v = e.accountSetId
    · subst hsrc
      by_cases hdst : e.accountSetId = e.memberAccountSetId
      · rw [if_pos rfl, if_pos hdst, if_pos hdst, Option.getD_some, ← hdst, h.getD_lookup]
        rfl
      · rw [if_pos rfl, if_neg hdst, if_neg hdst, h.getD_lookup]
        rfl
    · rw [if_neg hsrc]
      by_cases hdst : v = e.memberAccountSetId
      · rw [if_pos hdst, if_pos hdst, ← hdst, h.getD_lookup]
      · rw [if_neg hdst, if_neg hdst, h.indegree v ((hmem.resolve_left hsrc).resolve_left hdst)]
        rfl
  src_mem := by
    intro e' he'
    rw [SetDag.addEdge, mem_upsert, mem_upsert]
    rcases List.mem_append.mp he' with he' | he'
    · exact Or.inr (Or.inr (h.src_mem e' he'))
    · exact Or.inl (by rw [List.mem_singleton.mp he']; rfl)
  dst_mem := by
    intro e' he'
    rw [SetDag.addEdge, mem_upsert, mem_upsert]
    rcases List.mem_append.mp he' with he' | he'
    · exact Or.inr (Or.inr (h.dst_mem e' he'))
    · exact Or.inr (Or.inl (by rw [List.mem_singleton.mp he']; rfl))

theorem indexes_new (edges : List SetMembership) : Indexes (SetDag.new edges) edges := by
  induction edges using List.reverseRecOn with
  | nil => exact indexes_nil
  | append_singleton edges e ih =>
      rw [SetDag.new, List.foldl_append]
      exact ih.addEdge e

theorem Indexes.addIsolated (h : Indexes dag edges) (v : AccountSetId) :
    Indexes (dag.addIsolated v) edges where
  children := h.children
  indegree := by
    intro w hw
    rw [SetDag.addIsolated, lookup_upsert]
    rw [SetDag.addIsolated, mem_upsert] at hw
    by_cases heq : w = v
    · rw [if_pos heq, heq, h.getD_lookup]
      rfl
    · rw [if_neg heq, h.indegree w (hw.resolve_left heq)]
  src_mem := fun e he => mem_upsert.mpr (Or.inr (h.src_mem e he))
  dst_mem := fun e he => mem_upsert.mpr (Or.inr (h.dst_mem e he))

theorem indexes_combinedDag (existingEdges proposedEdges : List SetMembership)
    (accountMembers : List AccountMembership) :
    Indexes (combinedDag existingEdges proposedEdges accountMembers)
      (existingEdges ++ proposedEdges) := by
  rw [combinedDag]
  generalize accountMembers.map AccountMembership.accountSetId = sets
  have h := indexes_new (existingEdges ++ proposedEdges)
  generalize SetDag.new (existingEdges ++ proposedEdges) = dag at h
  induction sets generalizing dag with
  | nil => exact h
  | cons v sets ih => exact ih _ (h.addIsolated v)

/-! ## One child -/

/-- The depth noted for a set. -/
def depthOf (s : TraverseState) (v : AccountSetId) : ℕ := (s.depths.lookup v).getD 0

/-- What a Kahn pass knows: the edges into the listed or waiting sets have all been followed, and a
depth is the length of a walk, at least that of every walk whose last edge has been followed. -/
structure Kahn (dag : SetDag) (edges : List SetMembership) (order : List AccountSetId)
    (followed rest : List SetMembership) (s : TraverseState) : Prop where
  split : (followed ++ rest).Perm edges
  followed_mem : ∀ e ∈ followed, src e ∈ order
  remaining : ∀ v ∈ dag.indegree, s.remaining.lookup v = some ((rest.map dst).count v)
  ready : ∀ v, v ∈ order ++ s.queue ↔ v ∈ dag.indegree ∧ v ∉ rest.map dst
  nodup : (order ++ s.queue).Nodup
  topological : Topological edges (order ++ s.queue)
  longest : ∀ e ∈ followed, ∀ u is, Walk edges u is (src e) → is.length + 1 ≤ depthOf s (dst e)
  attained : ∀ v, ∃ u is, Walk edges u is v ∧ is.length = depthOf s v

variable {order : List AccountSetId} {followed rest rest' : List SetMembership} {s : TraverseState}

theorem Kahn.perm (hperm : rest.Perm rest') (h : Kahn dag edges order followed rest s) :
    Kahn dag edges order followed rest' s :=
  { h with
    split := (hperm.symm.append_left followed).trans h.split
    remaining := by
      intro v hv
      rw [h.remaining v hv, (hperm.map dst).count_eq]
    ready := by
      intro v
      rw [h.ready v, (hperm.map dst).mem_iff] }

/-- Every edge into a listed set has been followed. -/
theorem Kahn.followed_of_dst (h : Kahn dag edges order followed rest s) {e : SetMembership}
    (he : e ∈ edges) (hdst : dst e ∈ order ++ s.queue) : e ∈ followed := by
  rcases List.mem_append.mp (h.split.mem_iff.mpr he) with hmem | hmem
  · exact hmem
  · exact absurd (List.mem_map.mpr ⟨e, hmem, rfl⟩) ((h.ready _).mp hdst).2

/-- The depth of a listed set bounds all walks to it. -/
theorem Kahn.length_le (h : Kahn dag edges order followed rest s) {v : AccountSetId}
    (hv : v ∈ order ++ s.queue) {u : AccountSetId} {is : List ℕ} (hwalk : Walk edges u is v) :
    is.length ≤ depthOf s v := by
  induction is using List.reverseRecOn with
  | nil => exact Nat.zero_le _
  | append_singleton is i _ =>
      obtain ⟨e, he, hsrc, rfl⟩ := hwalk.unsnoc
      rw [List.length_append, List.length_singleton]
      exact h.longest e (h.followed_of_dst (List.mem_of_getElem? he) hv) u is hsrc

/-- The state after a child whose indegree was one more than `degree`. -/
def childVisited (parentDepth : ℕ) (s : TraverseState) (child : AccountSetId) (degree : ℕ) :
    TraverseState where
  remaining := s.remaining.insert child degree
  queue := if degree = 0 then s.queue ++ [child] else s.queue
  depths := s.depths.insert child
    (match s.depths.lookup child with
    | some depth => max depth (parentDepth + 1)
    | none => parentDepth + 1)

theorem depthOf_childVisited (parentDepth : ℕ) (s : TraverseState) (child : AccountSetId)
    (degree : ℕ) (v : AccountSetId) :
    depthOf (childVisited parentDepth s child degree) v
      = if v = child then max (depthOf s child) (parentDepth + 1) else depthOf s v := by
  unfold depthOf childVisited
  by_cases hv : v = child
  · subst hv
    rw [AList.lookup_insert, if_pos rfl]
    cases s.depths.lookup v with
    | none => simp
    | some depth => rfl
  · rw [AList.lookup_insert_ne hv, if_neg hv]

/-- A child is listed once all the edges into it have been followed. -/
theorem Kahn.listed_iff {e : SetMembership} (h : Kahn dag edges order followed (e :: rest) s)
    (hmem : dst e ∈ dag.indegree) (parentDepth : ℕ) (v : AccountSetId) :
    v ∈ order ++ (childVisited parentDepth s (dst e) ((rest.map dst).count (dst e))).queue
      ↔ v ∈ dag.indegree ∧ v ∉ rest.map dst := by
  have hready := h.ready v
  rw [List.map_cons, List.mem_cons, not_or] at hready
  unfold childVisited
  by_cases hzero : (rest.map dst).count (dst e) = 0
  · rw [if_pos hzero, ← List.append_assoc, List.mem_append, hready, List.mem_singleton]
    constructor
    · rintro (⟨hv, -, hrest⟩ | rfl)
      · exact ⟨hv, hrest⟩
      · exact ⟨hmem, List.count_eq_zero.mp hzero⟩
    · rintro ⟨hv, hrest⟩
      by_cases heq : v = dst e
      · exact Or.inr heq
      · exact Or.inl ⟨hv, heq, hrest⟩
  · rw [if_neg hzero, hready]
    refine and_congr_right' ⟨And.right, fun hrest => ⟨?_, hrest⟩⟩
    rintro rfl
    exact hzero (List.count_eq_zero.mpr hrest)

/-- **One child** of a listed set is visited without a panic. -/
theorem Kahn.visitChild (hdag : Indexes dag edges) {e : SetMembership}
    (h : Kahn dag edges order followed (e :: rest) s) (hsrc : src e ∈ order) :
    ∃ s', SetDag.visitChild (depthOf s (src e)) s (dst e) = some s'
      ∧ Kahn dag edges order (followed ++ [e]) rest s' ∧ depthOf s' (src e) = depthOf s (src e) := by
  have hedge : e ∈ edges := h.split.mem_iff.mp (by simp)
  have hmem : dst e ∈ dag.indegree := hdag.dst_mem e hedge
  have hlookup : s.remaining.lookup (dst e) = some ((rest.map dst).count (dst e) + 1) := by
    rw [h.remaining _ hmem, List.map_cons, List.count_cons_self]
  have hwaiting : dst e ∉ order ++ s.queue := fun hin => ((h.ready _).mp hin).2 (by simp)
  have hne : src e ≠ dst e := fun heq => hwaiting (heq ▸ List.mem_append_left _ hsrc)
  have hdepth := depthOf_childVisited (depthOf s (src e)) s (dst e) ((rest.map dst).count (dst e))
  have hgrows : ∀ v, depthOf s v ≤ depthOf (childVisited (depthOf s (src e)) s (dst e)
      ((rest.map dst).count (dst e))) v := by
    intro v
    rw [hdepth]
    split
    · next heq => rw [heq]; exact Nat.le_max_left _ _
    · exact Nat.le_refl _
  refine ⟨childVisited (depthOf s (src e)) s (dst e) ((rest.map dst).count (dst e)), ?_, ?_, ?_⟩
  · rw [SetDag.visitChild, hlookup]
    rfl
  · refine ⟨?_, ?_, ?_, h.listed_iff hmem _, ?_, ?_, ?_, ?_⟩
    · rw [List.append_assoc]
      exact h.split
    · intro e' he'
      rcases List.mem_append.mp he' with he' | he'
      · exact h.followed_mem e' he'
      · exact List.mem_singleton.mp he' ▸ hsrc
    · intro v hv
      by_cases heq : v = dst e
      · rw [heq]
        exact AList.lookup_insert _
      · have hold := h.remaining v hv
        rw [List.map_cons, List.count_cons_of_ne (Ne.symm heq)] at hold
        exact (AList.lookup_insert_ne heq).trans hold
    · unfold childVisited
      by_cases hzero : (rest.map dst).count (dst e) = 0
      · rw [if_pos hzero, ← List.append_assoc]
        exact List.nodup_append.mpr ⟨h.nodup, List.nodup_singleton _, by
          rintro v hv w hw rfl
          exact hwaiting (List.mem_singleton.mp hw ▸ hv)⟩
      · rw [if_neg hzero]
        exact h.nodup
    · unfold childVisited
      by_cases hzero : (rest.map dst).count (dst e) = 0
      · rw [if_pos hzero, ← List.append_assoc]
        refine h.topological.snoc (fun e' he' heq => List.mem_append_left _ ?_)
        -- the edges into a set that becomes ready have been followed, this one last
        rcases List.mem_append.mp (h.split.mem_iff.mpr he') with hmem' | hmem'
        · exact h.followed_mem e' hmem'
        · rcases List.mem_cons.mp hmem' with rfl | hmem'
          · exact hsrc
          · exact absurd (heq ▸ List.mem_map.mpr ⟨e', hmem', rfl⟩) (List.count_eq_zero.mp hzero)
      · rw [if_neg hzero]
        exact h.topological
    · intro e' he' u is hwalk
      rcases List.mem_append.mp he' with he' | he'
      · exact Nat.le_trans (h.longest e' he' u is hwalk) (hgrows _)
      · obtain rfl := List.mem_singleton.mp he'
        have hle := h.length_le (List.mem_append_left _ hsrc) hwalk
        rw [hdepth, if_pos rfl]
        omega
    · intro v
      by_cases heq : v = dst e
      · subst heq
        rw [hdepth, if_pos rfl]
        rcases Nat.le_total (depthOf s (src e) + 1) (depthOf s (dst e)) with hle | hle
        · rw [Nat.max_eq_left hle]
          exact h.attained _
        · rw [Nat.max_eq_right hle]
          obtain ⟨u, is, hwalk, hlength⟩ := h.attained (src e)
          obtain ⟨i, hi⟩ := List.getElem?_of_mem hedge
          exact ⟨u, is ++ [i], hwalk.snoc hi, by rw [List.length_append, hlength]; rfl⟩
      · rw [hdepth, if_neg heq]
        exact h.attained v
  · rw [hdepth, if_neg hne]

/-- All children of a listed set. -/
theorem Kahn.visitChildren (hdag : Indexes dag edges) {v : AccountSetId} (hv : v ∈ order)
    {batch : List SetMembership} :
    ∀ {followed s}, (∀ e ∈ batch, src e = v) → Kahn dag edges order followed (batch ++ rest) s →
      ∃ s', (batch.map dst).foldlM (SetDag.visitChild (depthOf s v)) s = some s'
        ∧ Kahn dag edges order (followed ++ batch) rest s' := by
  induction batch with
  | nil => exact fun _ h => ⟨_, rfl, by rwa [List.append_nil]⟩
  | cons e batch ih =>
      intro followed s hsrc h
      obtain ⟨he, hbatch⟩ := List.forall_mem_cons.mp hsrc
      subst he
      obtain ⟨s', hvisit, h', hdepth⟩ := Kahn.visitChild hdag h hv
      obtain ⟨s'', hvisits, h''⟩ := ih hbatch h'
      refine ⟨s'', ?_, ?_⟩
      · rw [List.map_cons, List.foldlM_cons, hvisit]
        rw [hdepth] at hvisits
        exact hvisits
      · rwa [List.append_assoc] at h''

/-! ## The whole pass -/

theorem Kahn.initial (hdag : Indexes dag edges) (iteration : IterationOrder AccountSetId) :
    Kahn dag edges [] [] edges
      { remaining := dag.indegree
        queue := (iteration.arrange dag.indegree.keys).filter
          (fun v => dag.indegree.lookup v = some 0)
        depths := ∅ } := by
  have hready : ∀ v, v ∈ (iteration.arrange dag.indegree.keys).filter
      (fun v => dag.indegree.lookup v = some 0) ↔ v ∈ dag.indegree ∧ v ∉ edges.map dst := by
    intro v
    rw [List.mem_filter, iteration.mem_arrange, AList.mem_keys]
    refine and_congr_right (fun hv => ?_)
    rw [hdag.indegree v hv, decide_eq_true_eq, Option.some_inj, List.count_eq_zero]
  refine ⟨List.Perm.refl _, nofun, hdag.indegree, hready, ?_, ?_, nofun, ?_⟩
  · exact ((iteration.perm _).nodup_iff.mpr dag.indegree.nodupKeys).filter _
  · exact Topological.of_roots (fun v hv e he heq =>
      ((hready v).mp hv).2 (List.mem_map.mpr ⟨e, he, heq⟩))
  · exact fun v => ⟨v, [], Walk.nil v, rfl⟩

/-- **One set** is taken from the queue. -/
theorem Kahn.dequeue (hdag : Indexes dag edges) {v : AccountSetId} {queue : List AccountSetId}
    (hqueue : s.queue = v :: queue) (h : Kahn dag edges order followed rest s)
    (hrest : ∀ e ∈ rest, src e ∉ order) :
    ∃ s' followed' rest',
      (dag.children v).foldlM (SetDag.visitChild (depthOf s v)) { s with queue := queue } = some s'
        ∧ Kahn dag edges (order ++ [v]) followed' rest' s'
        ∧ ∀ e ∈ rest', src e ∉ order ++ [v] := by
  have hv : v ∉ order := by
    have := h.nodup
    rw [hqueue] at this
    exact fun hmem => (List.nodup_append.mp this).2.2 v hmem v List.mem_cons_self rfl
  have hperm : rest.Perm (edgesFrom edges v ++ rest.filter (fun e => !decide (src e = v))) := by
    have hnone : followed.filter (fun e => src e = v) = [] := by
      refine List.filter_eq_nil_iff.mpr (fun e he heq => hv ?_)
      rw [decide_eq_true_eq] at heq
      exact heq ▸ h.followed_mem e he
    have hfrom : (edgesFrom edges v).Perm (rest.filter (fun e => src e = v)) := by
      have := h.split.filter (fun e => src e = v)
      rw [List.filter_append, hnone, List.nil_append] at this
      exact this.symm
    exact ((List.filter_append_perm (fun e : SetMembership => decide (src e = v)) rest).symm).trans
      (hfrom.symm.append_right _)
  have htaken : Kahn dag edges (order ++ [v]) followed
      (edgesFrom edges v ++ rest.filter (fun e => !decide (src e = v))) { s with queue := queue } := by
    have h := h.perm hperm
    have hlist : order ++ [v] ++ queue = order ++ s.queue := by rw [hqueue]; simp
    exact
      { split := h.split
        followed_mem := fun e he => List.mem_append_left _ (h.followed_mem e he)
        remaining := h.remaining
        ready := fun w => by rw [hlist]; exact h.ready w
        nodup := by rw [hlist]; exact h.nodup
        topological := by rw [hlist]; exact h.topological
        longest := h.longest
        attained := h.attained }
  obtain ⟨s', hvisits, h'⟩ := Kahn.visitChildren hdag (v := v) (by simp)
    (fun e he => (mem_edgesFrom.mp he).2) htaken
  refine ⟨s', _, _, ?_, h', fun e he => ?_⟩
  · rw [hdag.children v]
    exact hvisits
  · obtain ⟨he, hne⟩ := List.mem_filter.mp he
    rw [List.mem_append, not_or, List.mem_singleton]
    exact ⟨hrest e he, by simpa using hne⟩

/-- A pass with enough fuel ends with an empty queue. -/
theorem Kahn.drain (hdag : Indexes dag edges) (fuel : ℕ) :
    ∀ {order followed rest s}, Kahn dag edges order followed rest s →
      (∀ e ∈ rest, src e ∉ order) → dag.nodeCount ≤ order.length + fuel →
      ∃ s' order' followed' rest', s'.queue = []
        ∧ dag.drain fuel order s = some ⟨order', s'.depths⟩
        ∧ Kahn dag edges order' followed' rest' s' ∧ ∀ e ∈ rest', src e ∉ order' := by
  induction fuel with
  | zero =>
      intro order followed rest s h hrest hfuel
      have hempty : s.queue = [] := by
        have hsub : (order ++ s.queue).Subperm dag.indegree.keys :=
          h.nodup.subperm (fun v hv => AList.mem_keys.mpr ((h.ready v).mp hv).1)
        have hlength := hsub.length_le
        rw [List.length_append] at hlength
        unfold nodeCount at hfuel
        exact List.length_eq_zero_iff.mp (by omega)
      exact ⟨s, order, followed, rest, hempty, by rw [SetDag.drain, if_pos hempty], h, hrest⟩
  | succ fuel ih =>
      intro order followed rest s h hrest hfuel
      cases hqueue : s.queue with
      | nil => exact ⟨s, order, followed, rest, hqueue, by simp only [SetDag.drain, hqueue], h, hrest⟩
      | cons v queue =>
          obtain ⟨s', followed', rest', hvisits, h', hrest'⟩ := Kahn.dequeue hdag hqueue h hrest
          obtain ⟨s'', order'', followed'', rest'', hempty, hdrain, h'', hrest''⟩ :=
            ih h' hrest' (by rw [List.length_append, List.length_singleton]; omega)
          refine ⟨s'', order'', followed'', rest'', hempty, ?_, h'', hrest''⟩
          simp only [SetDag.drain, hqueue]
          unfold depthOf at hvisits
          rw [hvisits]
          exact hdrain

/-- On acyclic edges, a pass that has ended has listed every set. -/
theorem Kahn.complete (hdag : Indexes dag edges) (h : Kahn dag edges order followed rest s)
    (hrest : ∀ e ∈ rest, src e ∉ order) (hempty : s.queue = []) (hacyclic : Acyclic edges)
    (v : AccountSetId) : v ∈ dag.indegree → v ∈ order := by
  induction v using hacyclic.induction with
  | step v ih =>
      intro hv
      have hready := h.ready v
      rw [hempty, List.append_nil] at hready
      refine hready.mpr ⟨hv, fun hmem => ?_⟩
      obtain ⟨e, he, rfl⟩ := List.mem_map.mp hmem
      have hedge : e ∈ edges := h.split.mem_iff.mp (List.mem_append_right _ he)
      exact hrest e he (ih e hedge rfl (hdag.src_mem e hedge))

/-- The deepest of the depths noted. -/
theorem le_max?_getD {l : List ℕ} {n : ℕ} : l.max?.getD 0 ≤ n ↔ ∀ d ∈ l, d ≤ n := by
  cases hmax : l.max? with
  | none => simp [List.max?_eq_none_iff.mp hmax]
  | some d => exact List.max?_le_iff hmax

theorem Kahn.hasDepth (hdag : Indexes dag edges) (h : Kahn dag edges order followed rest s)
    (hall : ∀ v ∈ dag.indegree, v ∈ order) : HasDepth edges ((values s.depths).max?.getD 0) := by
  intro n
  rw [le_max?_getD]
  constructor
  · intro hbound d hd
    obtain ⟨v, hv⟩ := mem_values.mp hd
    obtain ⟨u, is, hwalk, hlength⟩ := h.attained v
    rw [depthOf, hv, Option.getD_some] at hlength
    exact hlength ▸ hbound u is v hwalk
  · intro hdepths u is v hwalk
    induction is using List.reverseRecOn with
    | nil => exact Nat.zero_le _
    | append_singleton is i _ =>
        obtain ⟨e, he, -, rfl⟩ := hwalk.unsnoc
        have hle := h.length_le (List.mem_append_left _
          (hall _ (hdag.dst_mem e (List.mem_of_getElem? he)))) hwalk
        cases hdepth : s.depths.lookup (dst e) with
        | none =>
            rw [depthOf, hdepth, Option.getD_none] at hle
            exact Nat.le_trans hle (Nat.zero_le _)
        | some d =>
            rw [depthOf, hdepth, Option.getD_some] at hle
            exact Nat.le_trans hle (hdepths d (mem_values.mpr ⟨_, hdepth⟩))

/-- What a Kahn pass returns. -/
structure Sorted (dag : SetDag) (edges : List SetMembership) (t : Traversal) : Prop where
  nodup : t.order.Nodup
  topological : Topological edges t.order
  complete_iff : t.order.length = dag.nodeCount ↔ Acyclic edges
  mem_of_acyclic : Acyclic edges → ∀ v ∈ dag.indegree, v ∈ t.order
  hasDepth : Acyclic edges → HasDepth edges t.maxDepth

/-- A Kahn pass ends without a panic, its queue empty. -/
theorem traverse_ends (iteration : IterationOrder AccountSetId) (hdag : Indexes dag edges) :
    ∃ s order followed rest, s.queue = [] ∧ dag.traverse iteration = some ⟨order, s.depths⟩
      ∧ Kahn dag edges order followed rest s ∧ ∀ e ∈ rest, src e ∉ order :=
  (Kahn.initial hdag iteration).drain hdag dag.nodeCount (fun _ _ => List.not_mem_nil)
    (Nat.le_add_left _ _)

/-- **A Kahn pass ends without a panic**, lists every set exactly when the edges are acyclic, and
measures their depth. -/
theorem traverse_spec (iteration : IterationOrder AccountSetId) (hdag : Indexes dag edges) :
    ∃ t, dag.traverse iteration = some t ∧ Sorted dag edges t := by
  obtain ⟨s, order, followed, rest, hempty, hdrain, h, hrest⟩ := traverse_ends iteration hdag
  have hnodup := h.nodup
  have htopological := h.topological
  rw [hempty, List.append_nil] at hnodup htopological
  have hsub : order ⊆ dag.indegree.keys := fun v hv =>
    AList.mem_keys.mpr ((h.ready v).mp (List.mem_append_left _ hv)).1
  have hcomplete := fun hacyclic => h.complete hdag hrest hempty hacyclic
  refine ⟨_, hdrain, hnodup, htopological, ⟨fun hlength => ?_, fun hacyclic => ?_⟩, hcomplete,
    fun hacyclic => h.hasDepth hdag (hcomplete hacyclic)⟩
  · have hperm := (hnodup.subperm hsub).perm_of_length_le (Nat.le_of_eq hlength.symm)
    exact htopological.acyclic (fun e he =>
      hperm.mem_iff.mpr (AList.mem_keys.mpr (hdag.dst_mem e he)))
  · refine Nat.le_antisymm (hnodup.subperm hsub).length_le ?_
    exact (List.Nodup.subperm dag.indegree.nodupKeys (fun v hv =>
      hcomplete hacyclic v (AList.mem_keys.mp hv))).length_le

/-- A Kahn pass lists nodes only. -/
theorem mem_of_traverse (iteration : IterationOrder AccountSetId) (hdag : Indexes dag edges)
    {t : Traversal} (htraverse : dag.traverse iteration = some t) {v : AccountSetId}
    (hv : v ∈ t.order) : v ∈ dag.indegree := by
  obtain ⟨s, order, followed, rest, -, hdrain, h, -⟩ := traverse_ends iteration hdag
  obtain rfl := Option.some.inj (htraverse.symm.trans hdrain)
  exact ((h.ready v).mp (List.mem_append_left _ hv)).1

/-- On acyclic edges, the depth noted for a set is the length of its longest chain from a root. -/
theorem traverse_depth (iteration : IterationOrder AccountSetId) (hdag : Indexes dag edges)
    {t : Traversal} (htraverse : dag.traverse iteration = some t) (hacyclic : Acyclic edges)
    {v : AccountSetId} (hv : v ∈ dag.indegree) :
    IsGreatest (chainLengths edges v) ((t.depths.lookup v).getD 0) := by
  obtain ⟨s, order, followed, rest, hempty, hdrain, h, hrest⟩ := traverse_ends iteration hdag
  obtain rfl := Option.some.inj (htraverse.symm.trans hdrain)
  obtain ⟨u, is, hwalk, hlength⟩ := h.attained v
  show IsGreatest _ (depthOf s v)
  rw [← hlength]
  refine hwalk.isGreatest (fun u' js hwalk' => ?_)
  rw [hlength]
  have hlisted := h.complete hdag hrest hempty hacyclic v hv
  exact h.length_le (List.mem_append_left _ hlisted) hwalk'

end SetDag

end CalaLedger
