import Mathlib.Data.List.AList

/-! # Hash maps as association lists

An `AList` stands for a hash map whose iteration order is unspecified. When every stored value
determines its own key, iterating over the values and keeping those of one key is a look-up
(`filter_values`, `filter_flatMap_values`); `ofKeys` builds a map from a list of keys, and `modify`
and `upsert` update one entry in place. Where an algorithm iterates over a collection and its course
depends on the order, the order is an `IterationOrder`. -/

namespace Foundations

variable {κ ν : Type*} [DecidableEq κ]

/-- The values of a map, in the order of its entries. -/
def values (m : AList (fun _ : κ => ν)) : List ν := m.entries.map Sigma.snd

theorem mem_values {m : AList (fun _ : κ => ν)} {v : ν} :
    v ∈ values m ↔ ∃ k, m.lookup k = some v := by
  constructor
  · intro h
    obtain ⟨⟨k, w⟩, hmem, rfl⟩ := List.mem_map.mp h
    exact ⟨k, AList.mem_lookup_iff.mpr hmem⟩
  · rintro ⟨k, hk⟩
    exact List.mem_map.mpr ⟨⟨k, v⟩, AList.mem_lookup_iff.mp hk, rfl⟩

/-- A list of key-tagged values whose tags are distinct, filtered by one tag, is a look-up. -/
theorem filter_entries_eq_dlookup (keyOf : ν → κ) (k : κ) :
    ∀ (l : List (Sigma fun _ : κ => ν)), l.NodupKeys → (∀ e ∈ l, keyOf e.2 = e.1) →
      (l.map Sigma.snd).filter (fun v => keyOf v = k) = (l.dlookup k).toList
  | [], _, _ => rfl
  | ⟨k', v⟩ :: rest, hnodup, hkeyed => by
      have hhead : keyOf v = k' := hkeyed ⟨k', v⟩ (by simp)
      rw [List.nodupKeys_cons] at hnodup
      have hrest := filter_entries_eq_dlookup keyOf k rest hnodup.2
        (fun e he => hkeyed e (List.mem_cons_of_mem _ he))
      rw [List.map_cons, List.filter_cons, hhead]
      by_cases hk : k' = k
      · subst hk
        have hnone : rest.dlookup k' = none := List.dlookup_eq_none.mpr hnodup.1
        rw [hnone] at hrest
        simp [List.dlookup_cons_eq, hrest]
      · rw [List.dlookup_cons_ne _ _ (Ne.symm hk)]
        simpa [hk] using hrest

/-- In a map whose values name their own key, keeping the values of one key is a look-up. -/
theorem filter_values (keyOf : ν → κ) (m : AList (fun _ : κ => ν)) (k : κ)
    (hkeyed : ∀ k v, m.lookup k = some v → keyOf v = k) :
    (values m).filter (fun v => keyOf v = k) = (m.lookup k).toList :=
  filter_entries_eq_dlookup keyOf k m.entries m.nodupKeys
    (fun e he => hkeyed e.1 e.2 (AList.mem_lookup_iff.mpr he))

/-- The same for what is read off each value: the part of one key comes from its look-up. -/
theorem filter_flatMap_values {β : Type*} (keyOf : β → κ) (vkey : ν → κ) (read : ν → List β)
    (m : AList (fun _ : κ => ν)) (hkeyed : ∀ k v, m.lookup k = some v → vkey v = k)
    (hread : ∀ v ∈ values m, ∀ b ∈ read v, keyOf b = vkey v) (k : κ) :
    ((values m).flatMap read).filter (fun b => keyOf b = k)
      = ((m.lookup k).map read).getD [] := by
  have hvalue : ∀ v ∈ values m, (read v).filter (fun b => keyOf b = k)
      = if vkey v = k then read v else [] := by
    intro v hv
    by_cases hk : vkey v = k
    · rw [if_pos hk]
      exact List.filter_eq_self.mpr (fun b hb => by simpa [hread v hv b hb] using hk)
    · rw [if_neg hk]
      exact List.filter_eq_nil_iff.mpr (fun b hb => by simpa [hread v hv b hb] using hk)
  have hsplit : (values m).flatMap (fun v => (read v).filter (fun b => keyOf b = k))
      = ((values m).filter (fun v => vkey v = k)).flatMap read := by
    generalize values m = vs at hvalue
    induction vs with
    | nil => rfl
    | cons v vs ih =>
        rw [List.flatMap_cons, hvalue v List.mem_cons_self,
          ih (fun w hw => hvalue w (List.mem_cons_of_mem _ hw))]
        by_cases hk : vkey v = k <;> simp [hk]
  rw [List.filter_flatMap, hsplit, filter_values vkey m k hkeyed]
  cases m.lookup k <;> simp

/-! ## Building and updating -/

/-- A map with one value for each key of a list. -/
def ofKeys (keys : List κ) (f : κ → ν) : AList (fun _ : κ => ν) :=
  keys.foldl (fun m k => m.insert k (f k)) ∅

theorem lookup_foldl_insert (f : κ → ν) (k : κ) (keys : List κ) :
    ∀ m : AList (fun _ : κ => ν),
      (keys.foldl (fun m k => m.insert k (f k)) m).lookup k
        = if k ∈ keys then some (f k) else m.lookup k := by
  induction keys with
  | nil => exact fun m => by simp
  | cons k' keys ih =>
      intro m
      rw [List.foldl_cons, ih]
      by_cases hk : k = k'
      · subst hk
        simp
      · simp [hk, AList.lookup_insert_ne hk]

@[simp] theorem lookup_ofKeys (keys : List κ) (f : κ → ν) (k : κ) :
    (ofKeys keys f).lookup k = if k ∈ keys then some (f k) else none := by
  rw [ofKeys, lookup_foldl_insert]
  simp

/-- Look keys up one after the other, and store what is found. -/
def storeFound (keys : List κ) (f : κ → Option ν) (m : AList (fun _ : κ => ν)) :
    AList (fun _ : κ => ν) :=
  keys.foldl (fun m k => match f k with | some v => m.insert k v | none => m) m

theorem lookup_storeFound (f : κ → Option ν) (k : κ) (keys : List κ) :
    ∀ m : AList (fun _ : κ => ν),
      (storeFound keys f m).lookup k = if k ∈ keys then (f k).or (m.lookup k) else m.lookup k := by
  induction keys with
  | nil => exact fun m => by simp [storeFound]
  | cons k' keys ih =>
      intro m
      have hcons : storeFound (k' :: keys) f m = storeFound keys f
          (match f k' with | some v => m.insert k' v | none => m) := rfl
      rw [hcons, ih]
      by_cases hk : k = k'
      · subst hk
        cases hf : f k <;> simp
      · cases hf : f k' with
        | none => simp [hk]
        | some v => simp [hk, AList.lookup_insert_ne hk]

/-- Overwriting a map with another. -/
theorem lookup_union (m m' : AList (fun _ : κ => ν)) (k : κ) :
    (m ∪ m').lookup k = (m.lookup k).or (m'.lookup k) := by
  by_cases hk : k ∈ m
  · obtain ⟨v, hv⟩ := Option.isSome_iff_exists.mp (AList.lookup_isSome.mpr hk)
    rw [AList.lookup_union_left hk, hv, Option.some_or]
  · rw [AList.lookup_union_right hk, AList.lookup_eq_none.mpr hk, Option.none_or]

/-- Values stored one after the other, each under its own key: the last one of a key stays. -/
theorem lookup_foldl_store {β : Type*} (keyOf : β → κ) (store : β → ν) (k : κ) (l : List β) :
    ∀ m : AList (fun _ : κ => ν),
      (l.foldl (fun m b => m.insert (keyOf b) (store b)) m).lookup k
        = ((l.filter (fun b => keyOf b = k)).getLast?.map store).or (m.lookup k) := by
  induction l with
  | nil => exact fun m => rfl
  | cons b l ih =>
      intro m
      rw [List.foldl_cons, ih, List.filter_cons]
      by_cases hb : keyOf b = k
      · rw [if_pos (by simpa using hb), ← hb, AList.lookup_insert]
        cases hlast : (l.filter (fun b' => keyOf b' = keyOf b)).getLast? with
        | none => simp [List.getLast?_eq_none_iff.mp hlast]
        | some last =>
            have hne : l.filter (fun b' => keyOf b' = keyOf b) ≠ [] := by
              intro hnil
              rw [hnil] at hlast
              cases hlast
            rw [List.getLast?_cons_of_ne_nil hne, hlast]
            rfl
      · rw [if_neg (by simpa using hb), AList.lookup_insert_ne (Ne.symm hb)]

/-- Pairs collected into a map, where a key comes with one value only. -/
theorem lookup_foldl_pairs {l : List (κ × ν)}
    (h : ∀ k v v', (k, v) ∈ l → (k, v') ∈ l → v = v') {k : κ} {v : ν} :
    (l.foldl (fun m pair => m.insert pair.1 pair.2) (∅ : AList (fun _ : κ => ν))).lookup k = some v
      ↔ (k, v) ∈ l := by
  rw [lookup_foldl_store Prod.fst Prod.snd k l ∅, AList.lookup_empty, Option.or_none,
    Option.map_eq_some_iff]
  constructor
  · rintro ⟨⟨k', v'⟩, hlast, rfl⟩
    obtain ⟨hmem, hk⟩ := List.mem_filter.mp (List.mem_of_getLast? hlast)
    obtain rfl := of_decide_eq_true hk
    exact hmem
  · intro hmem
    have hne : l.filter (fun pair => pair.1 = k) ≠ [] :=
      List.ne_nil_of_mem (List.mem_filter.mpr ⟨hmem, decide_eq_true rfl⟩)
    obtain ⟨⟨k', v'⟩, hlast⟩ : ∃ pair, (l.filter (fun pair => pair.1 = k)).getLast? = some pair :=
      ⟨_, List.getLast?_eq_some_getLast hne⟩
    obtain ⟨hmem', hk⟩ := List.mem_filter.mp (List.mem_of_getLast? hlast)
    obtain rfl := of_decide_eq_true hk
    exact ⟨(k', v'), hlast, h k' v' v hmem' hmem⟩

/-- Update the value of a key, if it has one. -/
def modify (m : AList (fun _ : κ => ν)) (k : κ) (f : ν → ν) : AList (fun _ : κ => ν) :=
  match m.lookup k with
  | some v => m.insert k (f v)
  | none => m

theorem lookup_modify (m : AList (fun _ : κ => ν)) (k k' : κ) (f : ν → ν) :
    (modify m k f).lookup k' = if k' = k then (m.lookup k').map f else m.lookup k' := by
  unfold modify
  by_cases hk : k' = k
  · subst hk
    cases hm : m.lookup k' with
    | none => simp [hm]
    | some v => simp
  · cases hm : m.lookup k with
    | none => simp [hk]
    | some v => simp [hk, AList.lookup_insert_ne hk]

/-- Change the value of a key, which is a default at first. -/
def upsert (m : AList (fun _ : κ => ν)) (k : κ) (default : ν) (f : ν → ν) :
    AList (fun _ : κ => ν) :=
  m.insert k (f ((m.lookup k).getD default))

theorem lookup_upsert (m : AList (fun _ : κ => ν)) (k k' : κ) (default : ν) (f : ν → ν) :
    (upsert m k default f).lookup k'
      = if k' = k then some (f ((m.lookup k).getD default)) else m.lookup k' := by
  unfold upsert
  by_cases hk : k' = k
  · subst hk
    simp
  · simp [hk, AList.lookup_insert_ne hk]

theorem mem_upsert {m : AList (fun _ : κ => ν)} {k k' : κ} {default : ν} {f : ν → ν} :
    k' ∈ upsert m k default f ↔ k' = k ∨ k' ∈ m := by
  rw [upsert, AList.mem_insert]

/-- Values folded into the map one after the other, each under its own key. -/
theorem lookup_foldl_upsert {β : Type*} (keyOf : β → κ) (default : ν) (step : ν → β → ν) (k : κ)
    (l : List β) : ∀ m : AList (fun _ : κ => ν),
      (l.foldl (fun m b => upsert m (keyOf b) default (fun v => step v b)) m).lookup k
        = if ∃ b ∈ l, keyOf b = k then
            some ((l.filter (fun b => keyOf b = k)).foldl step ((m.lookup k).getD default))
          else m.lookup k := by
  induction l with
  | nil => exact fun m => by simp
  | cons b l ih =>
      intro m
      rw [List.foldl_cons, ih, lookup_upsert, List.filter_cons]
      by_cases hb : keyOf b = k
      · subst hb
        have hsome : ∃ b' ∈ b :: l, keyOf b' = keyOf b := ⟨b, List.mem_cons_self, rfl⟩
        have hkeep : decide (keyOf b = keyOf b) = true := decide_eq_true rfl
        rw [if_pos rfl, if_pos hsome, if_pos hkeep, List.foldl_cons, Option.getD_some]
        split
        · rfl
        · rename_i hnone
          have hnil : l.filter (fun b' => keyOf b' = keyOf b) = [] := by
            rw [List.filter_eq_nil_iff]
            intro b' hb' heq
            exact hnone ⟨b', hb', of_decide_eq_true heq⟩
          rw [hnil, List.foldl_nil]
      · have hskip : ¬ decide (keyOf b = k) = true := by simpa using hb
        rw [if_neg (Ne.symm hb), if_neg hskip]
        simp only [List.mem_cons, exists_eq_or_imp, hb, false_or]

/-- The entries of a map are those its look-ups find. -/
theorem entries_perm {m : AList (fun _ : κ => ν)} {pairs : List (Sigma fun _ : κ => ν)}
    (hpairs : pairs.Nodup) (h : ∀ k v, m.lookup k = some v ↔ ⟨k, v⟩ ∈ pairs) :
    m.entries.Perm pairs := by
  refine (List.perm_ext_iff_of_nodup m.nodupKeys.nodup hpairs).mpr (fun ⟨k, v⟩ => ?_)
  rw [← AList.mem_lookup_iff, Option.mem_def, h]

/-- Values pushed one after the other, each under its own key. -/
theorem getD_lookup_foldl_push {β α : Type*} (keyOf : β → κ) (item : β → α) (k : κ) (l : List β) :
    ∀ m : AList (fun _ : κ => List α),
      ((l.foldl (fun m b => upsert m (keyOf b) [] (· ++ [item b])) m).lookup k).getD []
        = (m.lookup k).getD [] ++ (l.filter (fun b => keyOf b = k)).map item := by
  induction l with
  | nil => exact fun m => (List.append_nil _).symm
  | cons b l ih =>
      intro m
      rw [List.foldl_cons, ih, lookup_upsert, List.filter_cons]
      by_cases hb : keyOf b = k
      · subst hb
        simp
      · rw [if_neg (Ne.symm hb), if_neg (by simpa using hb)]

/-- The number of items under all keys. -/
def itemCount {α : Type*} (m : AList (fun _ : κ => List α)) : ℕ :=
  (m.entries.flatMap (fun entry => entry.2)).length

/-- The keys of a map of lists, each as often as it has items. -/
def itemKeys {α : Type*} (m : AList (fun _ : κ => List α)) : List κ :=
  m.entries.flatMap (fun entry => List.replicate entry.2.length entry.1)

omit [DecidableEq κ] in
theorem length_itemKeys {α : Type*} (m : AList (fun _ : κ => List α)) :
    (itemKeys m).length = itemCount m := by
  rw [itemKeys, itemCount]
  generalize m.entries = entries
  induction entries with
  | nil => rfl
  | cons entry entries ih => simp [ih]

theorem count_itemKeys {α : Type*} (m : AList (fun _ : κ => List α)) (k : κ) :
    (itemKeys m).count k = ((m.lookup k).getD []).length := by
  have hentries : ∀ l : List (Sigma fun _ : κ => List α), l.NodupKeys →
      (l.flatMap (fun entry => List.replicate entry.2.length entry.1)).count k
        = ((l.dlookup k).getD []).length := by
    intro l
    induction l with
    | nil => exact fun _ => rfl
    | cons entry l ih =>
        obtain ⟨k', items⟩ := entry
        intro hnodup
        rw [List.nodupKeys_cons] at hnodup
        rw [List.flatMap_cons, List.count_append, ih hnodup.2, List.count_replicate]
        by_cases hk : k' = k
        · subst hk
          rw [List.dlookup_eq_none.mpr hnodup.1, List.dlookup_cons_eq]
          simp
        · rw [List.dlookup_cons_ne _ _ (Ne.symm hk), if_neg (by simpa using hk), Nat.zero_add]
  exact hentries m.entries m.nodupKeys

/-- An order in which a hash collection is iterated. -/
structure IterationOrder (α : Type*) where
  arrange : List α → List α
  perm : ∀ l, (arrange l).Perm l

/-- One of them. -/
def IterationOrder.asStored (α : Type*) : IterationOrder α := ⟨id, fun _ => .refl _⟩

@[simp] theorem IterationOrder.mem_arrange {α : Type*} (iteration : IterationOrder α) {a : α}
    {l : List α} : a ∈ iteration.arrange l ↔ a ∈ l :=
  (iteration.perm l).mem_iff

/-- A traversal that succeeds on every value is a map. -/
theorem mapM_eq_some {α β : Type*} {f : α → Option β} {g : α → β} {l : List α}
    (h : ∀ a ∈ l, f a = some (g a)) : l.mapM f = some (l.map g) := by
  induction l with
  | nil => rfl
  | cons a l ih =>
      rw [List.mapM_cons, h a List.mem_cons_self,
        ih (fun b hb => h b (List.mem_cons_of_mem _ hb))]
      rfl

/-- A traversal that succeeds does so in any order, with the same results. -/
theorem mapM_perm {α β : Type*} {f : α → Option β} {l l' : List α} (hperm : l'.Perm l) :
    ∀ {out : List β}, l.mapM f = some out → ∃ out', l'.mapM f = some out' ∧ out'.Perm out := by
  induction hperm with
  | nil => exact fun h => ⟨_, h, List.Perm.refl _⟩
  | cons a _ ih =>
      intro out h
      rw [List.mapM_cons] at h
      obtain ⟨b, hb, h⟩ := Option.bind_eq_some_iff.mp h
      obtain ⟨bs, hbs, h⟩ := Option.bind_eq_some_iff.mp h
      cases h
      obtain ⟨bs', hbs', hperm⟩ := ih hbs
      exact ⟨b :: bs', by rw [List.mapM_cons, hb, hbs']; rfl, hperm.cons b⟩
  | swap a a' l =>
      intro out h
      rw [List.mapM_cons, List.mapM_cons] at h
      obtain ⟨b, hb, h⟩ := Option.bind_eq_some_iff.mp h
      obtain ⟨tail, htail, h⟩ := Option.bind_eq_some_iff.mp h
      cases h
      obtain ⟨b', hb', h⟩ := Option.bind_eq_some_iff.mp htail
      obtain ⟨bs, hbs, h⟩ := Option.bind_eq_some_iff.mp h
      cases h
      refine ⟨b' :: b :: bs, ?_, List.Perm.swap _ _ _⟩
      rw [List.mapM_cons, List.mapM_cons, hb, hb', hbs]
      rfl
  | trans _ _ ih ih' =>
      intro out h
      obtain ⟨middle, hmiddle, hperm⟩ := ih' h
      obtain ⟨out', hout', hperm'⟩ := ih hmiddle
      exact ⟨out', hout', hperm'.trans hperm⟩

/-- A successful traversal succeeds on every element. -/
theorem isSome_of_mapM {α β : Type*} {f : α → Option β} {l : List α} :
    (l.mapM f).isSome ↔ ∀ a ∈ l, (f a).isSome := by
  induction l with
  | nil => simp
  | cons a l ih =>
      rw [List.mapM_cons, List.forall_mem_cons, ← ih]
      cases f a with
      | none => simp
      | some b => cases l.mapM f <;> simp

/-- A traversal whose results may be missing fails or returns all of them. -/
theorem mapM_eq_ite {α β : Type*} (f : α → Option (Option β)) (l : List α) :
    l.mapM f = if ∀ a ∈ l, (f a).isSome then some (l.map (fun a => (f a).getD none)) else none := by
  split
  · rename_i hall
    refine mapM_eq_some (fun a ha => ?_)
    obtain ⟨b, hb⟩ := Option.isSome_iff_exists.mp (hall a ha)
    rw [hb, Option.getD_some]
  · rename_i hfail
    rw [← Option.not_isSome_iff_eq_none, isSome_of_mapM]
    exact hfail

/-- What a successful traversal returns, it returned for some element. -/
theorem exists_of_mem_mapM {α β : Type*} {f : α → Option β} {l : List α} :
    ∀ {l' : List β}, l.mapM f = some l' → ∀ b ∈ l', ∃ a ∈ l, f a = some b := by
  induction l with
  | nil =>
      intro l' h b hb
      cases h
      cases hb
  | cons a l ih =>
      intro l' h b hb
      rw [List.mapM_cons] at h
      obtain ⟨first, hfirst, h⟩ := Option.bind_eq_some_iff.mp h
      obtain ⟨rest, hrest, h⟩ := Option.bind_eq_some_iff.mp h
      cases h
      rcases List.mem_cons.mp hb with rfl | hb
      · exact ⟨a, List.mem_cons_self, hfirst⟩
      · obtain ⟨a', ha', hb'⟩ := ih hrest b hb
        exact ⟨a', List.mem_cons_of_mem _ ha', hb'⟩

/-- What holds between elements of one key, key by key, holds in the whole list. -/
theorem pairwise_of_filter_key {β : Type*} (keyOf : β → κ) {R : β → β → Prop} {l : List β}
    (h : ∀ k, (l.filter (fun b => keyOf b = k)).Pairwise R) :
    l.Pairwise (fun a b => keyOf a = keyOf b → R a b) := by
  induction l with
  | nil => exact List.Pairwise.nil
  | cons a l ih =>
      refine List.Pairwise.cons (fun b hb hab => ?_) (ih (fun k => ?_))
      · have hk := h (keyOf a)
        rw [List.filter_cons_of_pos (by simp)] at hk
        exact (List.pairwise_cons.mp hk).1 b (List.mem_filter.mpr ⟨hb, by simp [hab]⟩)
      · have hk := h k
        rw [List.filter_cons] at hk
        split at hk
        · exact (List.pairwise_cons.mp hk).2
        · exact hk

end Foundations
