import CalaLedger.AccountSet.GraphCache
import CalaLedger.AccountSet.GraphValidation
import CalaLedger.Foundations.Trails

/-! # Double membership

Attaching an account must not give it a second containment path to a set. The set-graph cache counts
paths upward in memory (`has_duplicate_account_membership_paths`) and gives up at a set it does not
know; the repository counts them with a recursive `UNION ALL` query
(`assert_no_double_membership`). Where the cache answers, both answer alike
(`double_membership_agrees`). -/

namespace CalaLedger

open Foundations Arrow

/-! ## The count in memory -/

section Counting

variable (parentsOf : AccountSetId → Option (List AccountSetId))

/-- The walk of one account in `has_duplicate_account_membership_paths`; `none` when the fuel does
not suffice. -/
def countPaths : ℕ → HashMap AccountSetId ℕ → List AccountSetId → Option (Option Bool)
  | _, _, [] => some (some false)
  | 0, _, _ :: _ => none
  | fuel + 1, pathCounts, accountSetId :: queue =>
      match parentsOf accountSetId with
      | none => some none
      | some parents =>
          let count := (pathCounts.lookup accountSetId).getD 0 + 1
          if count > 1 then some (some true)
          else countPaths fuel (pathCounts.insert accountSetId count) (queue ++ parents)

/-- The loop over the accounts, which ends at the first one that is not free of duplicates. -/
def countAccounts (fuel : ℕ) : List (List AccountSetId) → Option (Option Bool)
  | [] => some (some false)
  | seeds :: rest =>
      match countPaths parentsOf fuel ∅ seeds with
      | some (some false) => countAccounts fuel rest
      | answer => answer

/-- `has_duplicate_account_membership_paths`: `some none` is its answer `None`. -/
def hasDuplicateAccountMembershipPaths (iteration : IterationOrder (List AccountSetId)) (fuel : ℕ)
    (proposed existing : List AccountMembership) : Option (Option Bool) :=
  let perAccount : HashMap AccountId (List AccountSetId) :=
    (proposed ++ existing).foldl (fun perAccount membership =>
      upsert perAccount membership.accountId [] (· ++ [membership.accountSetId])) ∅
  countAccounts parentsOf fuel (iteration.arrange (values perAccount))

end Counting

/-! ## The query -/

namespace MembershipTables

variable (tables : MembershipTables)

/-- The rows the query reads of the accounts of `members`. -/
def existingMemberships (members : List AccountMembership) : List AccountMembership :=
  tables.memberAccounts.filter (fun m => m.accountId ∈ members.map AccountMembership.accountId)

/-- The recursive term of `containments`. -/
def containersOf (membership : AccountMembership) : List AccountMembership :=
  (tables.parents membership.accountSetId).map (fun setId => ⟨setId, membership.accountId⟩)

/-- `assert_no_double_membership`; `none` when the recursion has not ended. -/
def assertNoDoubleMembership (fuel : ℕ) (members : List AccountMembership) :
    Option (Except SetMembershipError Unit) :=
  (recursiveUnionAll tables.containersOf fuel (members ++ tables.existingMemberships members)).map
    (fun containments =>
      if ∃ m ∈ containments, 1 < containments.count m then .error .memberAlreadyAdded else .ok ())

end MembershipTables

/-! ## One account in memory -/

/-- What a set graph answers about the sets it knows. -/
structure SetGraphView (edges : List SetMembership) where
  parentsOf : AccountSetId → Option (List AccountSetId)
  agrees : ∀ setId parents, parentsOf setId = some parents →
    parents.Perm ((edges.filter (fun e => dst e = setId)).map src)

namespace SetGraphView

variable {edges : List SetMembership} (view : SetGraphView edges)

/-- The parents the view knows. -/
def next (setId : AccountSetId) : List AccountSetId := (view.parentsOf setId).getD []

theorem next_length_le (setId : AccountSetId) :
    (view.next setId).length ≤ (edges.map dst).count setId := by
  unfold next
  cases hparents : view.parentsOf setId with
  | none => exact Nat.zero_le _
  | some parents =>
      rw [Option.getD_some, (view.agrees setId parents hparents).length_eq, List.length_map,
        ← List.countP_eq_length_filter, List.count, List.countP_map]
      refine Nat.le_of_eq (List.countP_congr (fun e _ => ?_))
      simp

/-- What the answer for one account says. -/
def Answers (seeds : List AccountSetId) : Option Bool → Prop
  | some true => ∃ v is js, is ≠ js ∧ Trail view.next seeds is v ∧ Trail view.next seeds js v
  | some false => ∃ met, Worked view.next seeds met [] ∧ met.Nodup
      ∧ ∀ v ∈ met, (view.parentsOf v).isSome
  | none => ∃ v is, Trail view.next seeds is v ∧ view.parentsOf v = none

/-- **The walk of one account** ends, whatever cycles the graph has: no set is passed twice. -/
theorem countPaths_spec {seeds : List AccountSetId} :
    ∀ (fuel : ℕ) (pathCounts : HashMap AccountSetId ℕ) {met queue},
      Worked view.next seeds met queue → met.Nodup →
      (∀ v, (pathCounts.lookup v).getD 0 = met.count v) →
      (∀ v ∈ met, (view.parentsOf v).isSome) →
      seeds.length + edges.length ≤ met.length + fuel →
      ∃ answer, countPaths view.parentsOf fuel pathCounts queue = some answer
        ∧ view.Answers seeds answer := by
  intro fuel
  induction fuel with
  | zero =>
      intro pathCounts met queue h hnodup _ hknown hfuel
      have hle := h.length_le hnodup view.next_length_le
      rw [List.length_map] at hle
      obtain rfl : queue = [] := List.length_eq_zero_iff.mp (by omega)
      exact ⟨some false, by rw [countPaths], met, h, hnodup, hknown⟩
  | succ fuel ih =>
      intro pathCounts met queue h hnodup hcounts hknown hfuel
      cases queue with
      | nil => exact ⟨some false, by rw [countPaths], met, h, hnodup, hknown⟩
      | cons v queue =>
          cases hparents : view.parentsOf v with
          | none =>
              obtain ⟨is, his⟩ := h.exists_trail (v := v) (by simp)
              refine ⟨none, ?_, v, is, his, hparents⟩
              rw [countPaths, hparents]
          | some parents =>
              have hnext : view.next v = parents := by rw [next, hparents, Option.getD_some]
              by_cases hmet : v ∈ met
              · -- a second path: the set waits again after it has been passed
                refine ⟨some true, ?_, h.exists_trails (fun hall => ?_)⟩
                · rw [countPaths, hparents]
                  have hpos : 0 < met.count v := List.count_pos_iff.mpr hmet
                  simp only [hcounts]
                  rw [if_pos (by omega)]
                · exact (List.nodup_append.mp hall).2.2 v hmet v List.mem_cons_self rfl
              · have hzero : met.count v = 0 := List.count_eq_zero.mpr hmet
                have hstep := h.step
                rw [hnext] at hstep
                have hnodup' : (met ++ [v]).Nodup := by
                  refine List.nodup_append.mpr ⟨hnodup, List.nodup_singleton _, ?_⟩
                  rintro w hw w' hw' rfl
                  exact hmet (List.mem_singleton.mp hw' ▸ hw)
                have hcounts' : ∀ w, ((pathCounts.insert v 1).lookup w).getD 0
                    = (met ++ [v]).count w := by
                  intro w
                  rw [List.count_append]
                  by_cases hw : w = v
                  · subst hw
                    simp [hzero]
                  · rw [AList.lookup_insert_ne hw, hcounts]
                    simp [Ne.symm hw]
                have hknown' : ∀ w ∈ met ++ [v], (view.parentsOf w).isSome := by
                  intro w hw
                  rcases List.mem_append.mp hw with hw | hw
                  · exact hknown w hw
                  · rw [List.mem_singleton.mp hw, hparents]
                    rfl
                obtain ⟨answer, hanswer, hspec⟩ := ih _ hstep hnodup' hcounts' hknown' (by
                  rw [List.length_append, List.length_singleton]
                  omega)
                refine ⟨answer, ?_, hspec⟩
                rw [countPaths, hparents]
                simp only [hcounts, hzero]
                rw [if_neg (by omega)]
                exact hanswer

/-- A walk that has ended ends alike with more fuel. -/
theorem countPaths_mono {fuel fuel' : ℕ} (hle : fuel ≤ fuel') {pathCounts queue answer}
    (h : countPaths view.parentsOf fuel pathCounts queue = some answer) :
    countPaths view.parentsOf fuel' pathCounts queue = some answer := by
  induction fuel generalizing fuel' pathCounts queue with
  | zero =>
      cases queue with
      | nil => rw [countPaths] at h ⊢; exact h
      | cons v queue => cases h
  | succ fuel ih =>
      obtain ⟨fuel', rfl⟩ : ∃ n, fuel' = n + 1 := ⟨fuel' - 1, by omega⟩
      cases queue with
      | nil => rw [countPaths] at h ⊢; exact h
      | cons v queue =>
          rw [countPaths] at h ⊢
          cases hparents : view.parentsOf v with
          | none => rw [hparents] at h; exact h
          | some parents =>
              rw [hparents] at h
              simp only at h ⊢
              by_cases hcount : (pathCounts.lookup v).getD 0 + 1 > 1
              · rw [if_pos hcount] at h ⊢
                exact h
              · rw [if_neg hcount] at h ⊢
                exact ih (by omega) h

/-! ## All accounts in memory -/

/-- What an answer says of several accounts. -/
def AnswersAll (accounts : List (List AccountSetId)) : Option Bool → Prop
  | some false => ∀ seeds ∈ accounts, view.Answers seeds (some false)
  | answer => ∃ seeds ∈ accounts, view.Answers seeds answer

theorem countAccounts_spec (fuel : ℕ) (accounts : List (List AccountSetId))
    (hfuel : ∀ seeds ∈ accounts, seeds.length + edges.length ≤ fuel) :
    ∃ answer, (∀ fuel', fuel ≤ fuel' →
        countAccounts view.parentsOf fuel' accounts = some answer)
      ∧ view.AnswersAll accounts answer := by
  induction accounts with
  | nil => exact ⟨some false, fun _ _ => rfl, nofun⟩
  | cons seeds accounts ih =>
      obtain ⟨hseeds, haccounts⟩ := List.forall_mem_cons.mp hfuel
      obtain ⟨answer, hanswer, hspec⟩ := view.countPaths_spec fuel ∅ Worked.start
        List.nodup_nil (fun v => by simp) nofun (by simpa using hseeds)
      obtain ⟨answer', hanswer', hspec'⟩ := ih haccounts
      have hhead : ∀ fuel', fuel ≤ fuel' →
          countPaths view.parentsOf fuel' ∅ seeds = some answer :=
        fun fuel' hle => view.countPaths_mono hle hanswer
      rcases answer with _ | _ | _
      · refine ⟨none, fun fuel' hle => ?_, seeds, List.mem_cons_self, hspec⟩
        rw [countAccounts, hhead fuel' hle]
      · -- this account is free of duplicates, so the others decide
        refine ⟨answer', fun fuel' hle => ?_, ?_⟩
        · rw [countAccounts, hhead fuel' hle]
          exact hanswer' fuel' hle
        · rcases answer' with _ | _ | _
          · obtain ⟨other, hmem, hother⟩ := hspec'
            exact ⟨other, List.mem_cons_of_mem _ hmem, hother⟩
          · exact List.forall_mem_cons.mpr ⟨hspec, hspec'⟩
          · obtain ⟨other, hmem, hother⟩ := hspec'
            exact ⟨other, List.mem_cons_of_mem _ hmem, hother⟩
      · refine ⟨some true, fun fuel' hle => ?_, seeds, List.mem_cons_self, hspec⟩
        rw [countAccounts, hhead fuel' hle]

/-- What an answer says of every account of a list of memberships. -/
def Decided (memberships : List AccountMembership) : Option Bool → Prop
  | some true => ∃ accountId v is js, is ≠ js
      ∧ Trail view.next (SetGraphCache.seedSets memberships accountId) is v
      ∧ Trail view.next (SetGraphCache.seedSets memberships accountId) js v
  | some false => ∀ accountId,
      view.Answers (SetGraphCache.seedSets memberships accountId) (some false)
  | none => ∃ accountId v is,
      Trail view.next (SetGraphCache.seedSets memberships accountId) is v
        ∧ view.parentsOf v = none

/-- **The count in memory** ends, and its answer is about all accounts. -/
theorem hasDuplicate_spec (iteration : IterationOrder (List AccountSetId))
    (proposed existing : List AccountMembership) :
    ∃ answer, (∀ fuel, (proposed ++ existing).length + edges.length ≤ fuel →
        hasDuplicateAccountMembershipPaths view.parentsOf iteration fuel proposed existing
          = some answer)
      ∧ view.Decided (proposed ++ existing) answer := by
  have hlookup : ∀ accountId, ((((proposed ++ existing).foldl (fun perAccount membership =>
      upsert perAccount membership.accountId [] (· ++ [membership.accountSetId]))
        (∅ : HashMap AccountId (List AccountSetId))).lookup accountId).getD [])
      = SetGraphCache.seedSets (proposed ++ existing) accountId := by
    intro accountId
    rw [getD_lookup_foldl_push, AList.lookup_empty]
    rfl
  generalize hperAccount : (proposed ++ existing).foldl (fun perAccount membership =>
      upsert perAccount membership.accountId [] (· ++ [membership.accountSetId]))
        (∅ : HashMap AccountId (List AccountSetId)) = perAccount at hlookup
  have hseeds : ∀ seeds ∈ iteration.arrange (values perAccount), ∃ accountId,
      seeds = SetGraphCache.seedSets (proposed ++ existing) accountId := by
    intro seeds hmem
    obtain ⟨accountId, haccount⟩ := mem_values.mp (iteration.mem_arrange.mp hmem)
    exact ⟨accountId, by rw [← hlookup, haccount, Option.getD_some]⟩
  obtain ⟨answer, hanswer, hspec⟩ := view.countAccounts_spec
    ((proposed ++ existing).length + edges.length) (iteration.arrange (values perAccount)) (by
      intro seeds hmem
      obtain ⟨accountId, rfl⟩ := hseeds seeds hmem
      rw [SetGraphCache.seedSets, List.length_map]
      exact Nat.add_le_add_right (List.length_filter_le _ _) _)
  refine ⟨answer, fun fuel hfuel => ?_, ?_⟩
  · rw [hasDuplicateAccountMembershipPaths, hperAccount]
    exact hanswer fuel hfuel
  · rcases answer with _ | _ | _
    · obtain ⟨seeds, hmem, v, is, htrail, hunknown⟩ := hspec
      obtain ⟨accountId, rfl⟩ := hseeds seeds hmem
      exact ⟨accountId, v, is, htrail, hunknown⟩
    · intro accountId
      cases haccount : perAccount.lookup accountId with
      | none =>
          have hempty := hlookup accountId
          rw [haccount, Option.getD_none] at hempty
          rw [← hempty]
          exact ⟨[], Worked.start, List.nodup_nil, nofun⟩
      | some seeds =>
          have heq := hlookup accountId
          rw [haccount, Option.getD_some] at heq
          rw [← heq]
          exact hspec seeds (iteration.mem_arrange.mpr (mem_values.mpr ⟨accountId, haccount⟩))
    · obtain ⟨seeds, hmem, v, is, js, hne, his, hjs⟩ := hspec
      obtain ⟨accountId, rfl⟩ := hseeds seeds hmem
      exact ⟨accountId, v, is, js, hne, his, hjs⟩

end SetGraphView

/-! ## The query, account by account -/

namespace MembershipTables

variable (tables : MembershipTables)

theorem seedSets_append (front back : List AccountMembership) (accountId : AccountId) :
    SetGraphCache.seedSets (front ++ back) accountId
      = SetGraphCache.seedSets front accountId ++ SetGraphCache.seedSets back accountId := by
  rw [SetGraphCache.seedSets, List.filter_append, List.map_append]
  rfl

/-- The containers of the rows of one account. -/
theorem seedSets_flatMap_containersOf (rows : List AccountMembership) (accountId : AccountId) :
    SetGraphCache.seedSets (rows.flatMap tables.containersOf) accountId
      = (SetGraphCache.seedSets rows accountId).flatMap tables.parents := by
  induction rows with
  | nil => rfl
  | cons m rows ih =>
      rw [List.flatMap_cons, seedSets_append, ih]
      by_cases hm : m.accountId = accountId
      · subst hm
        simp [SetGraphCache.seedSets, containersOf, List.filter_map, Function.comp_def]
      · simp [SetGraphCache.seedSets, containersOf, List.filter_map, Function.comp_def, hm]

theorem recursiveUnionAll_account {fuel : ℕ} {frontier rows : List AccountMembership}
    (h : recursiveUnionAll tables.containersOf fuel frontier = some rows) (accountId : AccountId) :
    recursiveUnionAll tables.parents fuel (SetGraphCache.seedSets frontier accountId)
      = some (SetGraphCache.seedSets rows accountId) := by
  induction fuel generalizing frontier rows with
  | zero =>
      cases frontier with
      | nil => cases h; rfl
      | cons m frontier => cases h
  | succ fuel ih =>
      rw [recursiveUnionAll_succ, Option.map_eq_some_iff] at h
      obtain ⟨rest, hrest, rfl⟩ := h
      rw [recursiveUnionAll_succ, ← seedSets_flatMap_containersOf, ih hrest, seedSets_append]
      rfl

/-- A row that is found twice is a set found twice for its account. -/
theorem count_seedSets (rows : List AccountMembership) (m : AccountMembership) :
    (SetGraphCache.seedSets rows m.accountId).count m.accountSetId = rows.count m := by
  induction rows with
  | nil => rfl
  | cons other rows ih =>
      obtain ⟨setId, accountId⟩ := m
      obtain ⟨setId', accountId'⟩ := other
      rw [← List.singleton_append, seedSets_append, List.count_append, List.count_append, ih]
      congr 1
      by_cases haccount : accountId' = accountId
      · subst haccount
        by_cases hset : setId' = setId <;> simp [SetGraphCache.seedSets, hset]
      · simp [SetGraphCache.seedSets, haccount]

theorem conflict_iff (rows : List AccountMembership) :
    (∃ m ∈ rows, 1 < rows.count m)
      ↔ ∃ accountId, ¬ (SetGraphCache.seedSets rows accountId).Nodup := by
  simp only [List.nodup_iff_count_le_one, not_forall, Nat.not_le]
  constructor
  · rintro ⟨m, -, hcount⟩
    exact ⟨m.accountId, m.accountSetId, by rwa [count_seedSets]⟩
  · rintro ⟨accountId, setId, hcount⟩
    have hcount : 1 < rows.count ⟨setId, accountId⟩ := by
      rwa [← count_seedSets rows ⟨setId, accountId⟩]
    exact ⟨_, List.count_pos_iff.mp (by omega), hcount⟩

/-- **The query ends** on an acyclic graph. -/
theorem recursiveUnionAll_containersOf (hacyclic : Acyclic tables.memberAccountSets)
    (frontier : List AccountMembership) :
    ∃ rows, recursiveUnionAll tables.containersOf (tables.memberAccountSets.length + 1) frontier
      = some rows := by
  refine recursiveUnionAll_ends (P := fun n (m : AccountMembership) =>
    ∀ u is, Walk tables.memberAccountSets u is m.accountSetId → is.length < n) (fun m h => ?_)
    (fun n m h container hcontainer => ?_) _ (fun m _ u is hwalk => ?_)
  · exact absurd (h _ [] (Walk.nil _)) (Nat.not_lt_zero _)
  · intro u is hwalk
    obtain ⟨setId, hset, rfl⟩ := List.mem_map.mp hcontainer
    obtain ⟨e, he, rfl⟩ := List.mem_map.mp hset
    obtain ⟨he, hdst⟩ := List.mem_filter.mp he
    obtain ⟨i, hi⟩ := List.getElem?_of_mem he
    have hwalk : Walk tables.memberAccountSets u (is ++ [i]) (dst e) := hwalk.snoc hi
    have hdst : dst e = m.accountSetId := of_decide_eq_true hdst
    have hlt := h u _ (hdst ▸ hwalk)
    rw [List.length_append, List.length_singleton] at hlt
    omega
  · exact Nat.lt_succ_of_le (hacyclic.depthAtMost u is _ hwalk)

end MembershipTables

/-! ## Agreement -/

section Agreement

variable {tables : MembershipTables} (view : SetGraphView tables.memberAccountSets)

theorem SetGraphView.next_subperm (setId : AccountSetId) :
    (view.next setId).Subperm (tables.parents setId) := by
  unfold SetGraphView.next
  cases hparents : view.parentsOf setId with
  | none => exact List.nil_subperm
  | some parents => exact (view.agrees setId parents hparents).subperm

theorem SetGraphView.next_perm {setId : AccountSetId} (h : (view.parentsOf setId).isSome) :
    (view.next setId).Perm (tables.parents setId) := by
  obtain ⟨parents, hparents⟩ := Option.isSome_iff_exists.mp h
  rw [SetGraphView.next, hparents]
  exact view.agrees setId parents hparents

theorem flatMap_subperm {f g : AccountSetId → List AccountSetId} (h : ∀ u, (f u).Subperm (g u))
    (l : List AccountSetId) : (l.flatMap f).Subperm (l.flatMap g) := by
  induction l with
  | nil => exact List.Subperm.refl _
  | cons u l ih => exact (h u).append ih

/-- Where the query finds every set once for an account, the account has no second path. -/
theorem unique_of_query {seeds rows seeds' : List AccountSetId}
    (hrows : rows.Perm (seeds ++ rows.flatMap tables.parents)) (hnodup : rows.Nodup)
    (hseeds : seeds'.Perm seeds) {v : AccountSetId} {is js : List ℕ}
    (his : Trail view.next seeds' is v) (hjs : Trail view.next seeds' js v) : is = js := by
  have hsub : (seeds' ++ rows.flatMap view.next).Subperm rows :=
    ((hseeds.subperm).append (flatMap_subperm view.next_subperm rows)).trans hrows.symm.subperm
  obtain ⟨l, hl, hsublist⟩ := hsub
  refine trail_unique (hl.nodup_iff.mp (hsublist.nodup hnodup)) (fun w hw => ?_)
    (fun u hu w hw => ?_) his hjs
  · exact hsublist.subset (hl.mem_iff.mpr (List.mem_append_left _ hw))
  · exact hsublist.subset (hl.mem_iff.mpr
      (List.mem_append_right _ (List.mem_flatMap.mpr ⟨u, hu, hw⟩)))

/-- Where the walk in memory passes every set once, the query finds every set once. -/
theorem query_nodup {seeds rows seeds' met : List AccountSetId} {fuel : ℕ}
    (hrows : recursiveUnionAll tables.parents fuel seeds = some rows)
    (hseeds : seeds'.Perm seeds) (hworked : Worked view.next seeds' met []) (hnodup : met.Nodup)
    (hknown : ∀ v ∈ met, (view.parentsOf v).isSome) : rows.Nodup := by
  have hperm := hworked.perm
  rw [List.append_nil] at hperm
  have hflat : (met.flatMap view.next).Perm (met.flatMap tables.parents) :=
    List.Perm.flatMap_left met (fun v hv => view.next_perm (hknown v hv))
  have hall : (seeds ++ met.flatMap tables.parents).Perm met :=
    ((hseeds.symm.append hflat.symm)).trans hperm.symm
  have hsub := subperm_of_recursiveUnionAll hall.subperm [] (by simp)
    ((List.sublist_append_left _ _).subperm.trans hall.subperm) hrows
  obtain ⟨l, hl, hsublist⟩ := hsub
  exact hl.nodup_iff.mp (hsublist.nodup hnodup)

end Agreement

/-- **Both paths decide double membership alike.** For every set graph and every memberships, the
count in memory ends; when it answers, it says whether some account reaches some set by two trails,
and when it does not, a set is reached that the view does not know. On an acyclic graph the recursive
query ends too, and rejects the memberships exactly when the answer in memory is that there are two. -/
theorem double_membership_agrees (tables : MembershipTables)
    (view : SetGraphView tables.memberAccountSets) (iteration : IterationOrder (List AccountSetId))
    (proposed existing : List AccountMembership) :
    ∃ answer,
      (∀ fuel, (proposed ++ existing).length + tables.memberAccountSets.length ≤ fuel →
        hasDuplicateAccountMembershipPaths view.parentsOf iteration fuel proposed existing
          = some answer)
      ∧ (∀ b, answer = some b → (b = true ↔ ∃ accountId v is js, is ≠ js
          ∧ Trail view.next (SetGraphCache.seedSets (proposed ++ existing) accountId) is v
          ∧ Trail view.next (SetGraphCache.seedSets (proposed ++ existing) accountId) js v))
      ∧ (answer = none → ∃ accountId v is,
          Trail view.next (SetGraphCache.seedSets (proposed ++ existing) accountId) is v
            ∧ view.parentsOf v = none)
      ∧ (Acyclic tables.memberAccountSets →
          existing.Perm (tables.existingMemberships proposed) →
          ∀ b, answer = some b → ∀ fuel, tables.memberAccountSets.length < fuel →
            tables.assertNoDoubleMembership fuel proposed
              = some (if b then .error .memberAlreadyAdded else .ok ())) := by
  obtain ⟨answer, hanswer, hdecided⟩ := view.hasDuplicate_spec iteration proposed existing
  refine ⟨answer, hanswer, ?_, ?_, ?_⟩
  · rintro b rfl
    cases b with
    | true => exact iff_of_true rfl hdecided
    | false =>
        refine iff_of_false nofun ?_
        rintro ⟨accountId, v, is, js, hne, his, hjs⟩
        obtain ⟨met, hworked, hnodup, -⟩ := hdecided accountId
        exact hne (hworked.trail_unique hnodup his hjs)
  · rintro rfl
    exact hdecided
  · intro hacyclic hperm b hb fuel hfuel
    subst hb
    obtain ⟨rows, hrows⟩ := tables.recursiveUnionAll_containersOf hacyclic
      (proposed ++ tables.existingMemberships proposed)
    have haccount := tables.recursiveUnionAll_account hrows
    have hseeds : ∀ accountId, (SetGraphCache.seedSets (proposed ++ existing) accountId).Perm
        (SetGraphCache.seedSets (proposed ++ tables.existingMemberships proposed) accountId) :=
      fun accountId => ((hperm.append_left proposed).filter _).map _
    rw [MembershipTables.assertNoDoubleMembership, recursiveUnionAll_mono hfuel hrows,
      Option.map_some, Option.some_inj]
    cases b with
    | true =>
        obtain ⟨accountId, v, is, js, hne, his, hjs⟩ := hdecided
        refine if_pos ((MembershipTables.conflict_iff rows).mpr ⟨accountId, fun hnodup => hne ?_⟩)
        exact unique_of_query view (perm_of_recursiveUnionAll (haccount accountId)) hnodup
          (hseeds accountId) his hjs
    | false =>
        refine if_neg (fun hconflict => ?_)
        obtain ⟨accountId, htwice⟩ := (MembershipTables.conflict_iff rows).mp hconflict
        obtain ⟨met, hworked, hnodup, hknown⟩ := hdecided accountId
        exact htwice (query_nodup view (haccount accountId) (hseeds accountId) hworked hnodup hknown)

end CalaLedger
