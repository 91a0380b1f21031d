/-! # Traversals that may fail

`mapM` in `Except`, read as a condition and a result: it succeeds exactly when every element does
(`mapM_ok_iff`), and the results of elements that succeed are read off one by one (`okOr`). Bind,
`mapError` and `toOption` are read back from a successful result. A loop that compares every element
with the earlier ones decides whether a list is pairwise related (`decides_foldlM`). -/

namespace Foundations

variable {ε α β : Type}

/-- Whether a computation succeeds. -/
def Succeeds (x : Except ε α) : Prop := ∃ a, x = .ok a

/-- The result of a computation, or a default where it fails. -/
def okOr (default : α) : Except ε α → α
  | .ok a => a
  | .error _ => default

@[simp] theorem okOr_ok (default a : α) : okOr default (.ok a : Except ε α) = a := rfl

@[simp] theorem succeeds_ok (a : α) : Succeeds (.ok a : Except ε α) := ⟨a, rfl⟩

@[simp] theorem not_succeeds_error (e : ε) : ¬ Succeeds (.error e : Except ε α) := by
  rintro ⟨a, ⟨⟩⟩

instance (x : Except ε α) : Decidable (Succeeds x) :=
  match x with
  | .ok a => .isTrue (succeeds_ok a)
  | .error e => .isFalse (not_succeeds_error e)

theorem Succeeds.eq_ok {x : Except ε α} (h : Succeeds x) (default : α) :
    x = .ok (okOr default x) := by
  obtain ⟨a, rfl⟩ := h
  rfl

theorem bind_eq_ok {x : Except ε α} {f : α → Except ε β} {b : β} :
    (x >>= f) = .ok b ↔ ∃ a, x = .ok a ∧ f a = .ok b := by
  cases x with
  | error e =>
      constructor
      · rintro ⟨⟩
      · rintro ⟨a, ⟨⟩, -⟩
  | ok a =>
      constructor
      · exact fun h => ⟨a, rfl, h⟩
      · rintro ⟨_, ⟨⟩, h⟩
        exact h

theorem mapError_eq_ok {ε' : Type} {f : ε → ε'} {x : Except ε α} {a : α} :
    x.mapError f = .ok a ↔ x = .ok a := by
  cases x with
  | error e => exact ⟨nofun, nofun⟩
  | ok b =>
      exact ⟨fun h => congrArg Except.ok (Except.ok.inj h),
        fun h => congrArg Except.ok (Except.ok.inj h)⟩

theorem map_eq_ok {f : α → β} {x : Except ε α} {b : β} :
    x.map f = .ok b ↔ ∃ a, x = .ok a ∧ f a = b := by
  cases x with
  | error e => exact ⟨nofun, nofun⟩
  | ok a =>
      constructor
      · rintro ⟨⟩
        exact ⟨a, rfl, rfl⟩
      · rintro ⟨_, ⟨⟩, rfl⟩
        rfl

theorem toOption_ok {a : α} : (.ok a : Except ε α).toOption = some a := rfl

theorem toOption_eq_some {x : Except ε α} {a : α} : x.toOption = some a ↔ x = .ok a := by
  cases x with
  | error e => exact ⟨nofun, nofun⟩
  | ok b =>
      exact ⟨fun h => congrArg Except.ok (Option.some.inj h),
        fun h => congrArg some (Except.ok.inj h)⟩

/-- **A traversal succeeds exactly when every element does.** -/
theorem mapM_ok_iff {f : α → Except ε β} (default : β) {l : List α} {l' : List β} :
    l.mapM f = .ok l'
      ↔ (∀ a ∈ l, Succeeds (f a)) ∧ l' = l.map (fun a => okOr default (f a)) := by
  induction l generalizing l' with
  | nil =>
      constructor
      · rintro ⟨⟩
        exact ⟨fun _ h => (List.not_mem_nil h).elim, rfl⟩
      · rintro ⟨-, rfl⟩
        rfl
  | cons a l ih =>
      rw [List.mapM_cons, bind_eq_ok]
      constructor
      · rintro ⟨b, hb, h⟩
        obtain ⟨rest, hrest, h⟩ := bind_eq_ok.mp h
        cases h
        obtain ⟨hall, rfl⟩ := ih.mp hrest
        refine ⟨List.forall_mem_cons.mpr ⟨⟨b, hb⟩, hall⟩, ?_⟩
        rw [List.map_cons, hb, okOr_ok]
      · rintro ⟨hall, rfl⟩
        obtain ⟨ha, hrest⟩ := List.forall_mem_cons.mp hall
        exact ⟨_, ha.eq_ok default, bind_eq_ok.mpr ⟨_, ih.mpr ⟨hrest, rfl⟩, rfl⟩⟩

/-- A loop of checks passes exactly when every check does. -/
theorem forM_ok_iff {f : α → Except ε PUnit} {l : List α} :
    l.forM f = .ok ⟨⟩ ↔ ∀ a ∈ l, Succeeds (f a) := by
  induction l with
  | nil => exact ⟨fun _ _ h => (List.not_mem_nil h).elim, fun _ => rfl⟩
  | cons a l ih =>
      change (f a >>= fun _ => l.forM f) = .ok ⟨⟩ ↔ _
      rw [List.forall_mem_cons, ← ih, bind_eq_ok]
      constructor
      · rintro ⟨b, hb, h⟩
        exact ⟨⟨b, hb⟩, h⟩
      · rintro ⟨⟨b, hb⟩, h⟩
        exact ⟨b, hb, h⟩

/-- A computation that succeeds exactly when a condition holds, with a result as described, and fails
with one error. -/
def Decides (err : ε) (Q : Prop) (P : α → Prop) : Except ε α → Prop
  | .ok a => Q ∧ P a
  | .error e => e = err ∧ ¬ Q

theorem Decides.imp {err : ε} {Q Q' : Prop} {P P' : α → Prop} {x : Except ε α}
    (h : Decides err Q P x) (hQ : Q ↔ Q') (hP : ∀ a, P a → P' a) : Decides err Q' P' x := by
  cases x with
  | error e => exact ⟨h.1, fun hq => h.2 (hQ.mpr hq)⟩
  | ok a => exact ⟨hQ.mp h.1, hP a h.2⟩

theorem Decides.bind {err : ε} {Q Q' : Prop} {P : α → Prop} {P' : β → Prop} {x : Except ε α}
    {f : α → Except ε β} (h : Decides err Q P x) (hf : Q → ∀ a, P a → Decides err Q' P' (f a)) :
    Decides err (Q ∧ Q') P' (x >>= f) := by
  cases x with
  | error e => exact ⟨h.1, fun hq => h.2 hq.1⟩
  | ok a => exact (hf h.1 a h.2).imp ⟨fun hq => ⟨h.1, hq⟩, And.right⟩ (fun _ => id)

/-- **A loop that checks every element against those before it** checks every pair. -/
theorem decides_foldlM {σ : Type} {f : σ → α → Except ε σ} {err : ε} {R : α → α → Prop}
    {I : List α → σ → Prop} {l : List α}
    (step : ∀ a ∈ l, ∀ done s, I done s →
      Decides err (∀ b ∈ done, R b a) (I (done ++ [a])) (f s a)) :
    ∀ done s, I done s →
      Decides err (l.Pairwise R ∧ ∀ b ∈ done, ∀ a ∈ l, R b a) (I (done ++ l)) (l.foldlM f s) := by
  induction l with
  | nil =>
      intro done s h
      exact ⟨⟨List.Pairwise.nil, fun _ _ _ h => (List.not_mem_nil h).elim⟩, by
        rwa [List.append_nil]⟩
  | cons a l ih =>
      intro done s h
      rw [List.foldlM_cons]
      refine ((step a List.mem_cons_self done s h).bind (fun _ s' h' =>
        ih (fun b hb => step b (List.mem_cons_of_mem _ hb)) _ s' h')).imp ?_ (fun s' h' => ?_)
      · rw [List.pairwise_cons]
        constructor
        · rintro ⟨ha, hl, hdone⟩
          refine ⟨⟨fun b hb => hdone a (by simp) b hb, hl⟩, fun b hb => ?_⟩
          exact List.forall_mem_cons.mpr ⟨ha b hb, hdone b (List.mem_append_left _ hb)⟩
        · rintro ⟨⟨ha, hl⟩, hdone⟩
          refine ⟨fun b hb => hdone b hb a List.mem_cons_self, hl, fun b hb c hc => ?_⟩
          rcases List.mem_append.mp hb with hb | hb
          · exact hdone b hb c (List.mem_cons_of_mem _ hc)
          · exact List.mem_singleton.mp hb ▸ ha c hc
      · rwa [List.append_assoc] at h'

/-- Steps that agree on the elements of a list run alike over it. -/
theorem foldlM_congr {σ : Type} {f g : σ → α → Option σ} {l : List α}
    (h : ∀ a ∈ l, ∀ s, f s a = g s a) (s : σ) : l.foldlM f s = l.foldlM g s := by
  induction l generalizing s with
  | nil => rfl
  | cons a l ih =>
      rw [List.foldlM_cons, List.foldlM_cons, h a List.mem_cons_self]
      exact congrArg _ (funext (fun s => ih (fun b hb => h b (List.mem_cons_of_mem _ hb)) s))

/-- A search whose tests all have a result. -/
theorem findM?_eq_some {p : α → Option Bool} {q : α → Bool} {l : List α}
    (h : ∀ a ∈ l, p a = some (q a)) : l.findM? p = some (l.find? q) := by
  induction l with
  | nil => rfl
  | cons a l ih =>
      rw [List.findM?, h a List.mem_cons_self]
      cases hq : q a with
      | true => rw [List.find?_cons_of_pos hq]; rfl
      | false =>
          rw [List.find?_cons_of_neg (by simp [hq])]
          exact ih (fun b hb => h b (List.mem_cons_of_mem _ hb))

/-- Where a traversal of options succeeds, every element has a result. -/
theorem exists_result_of_mapM {f : α → Option β} {l : List α} :
    ∀ {l' : List β}, l.mapM f = some l' → ∀ a ∈ l, ∃ b ∈ l', f a = some b := by
  induction l with
  | nil => exact fun _ _ h => (List.not_mem_nil h).elim
  | cons a l ih =>
      intro l' h
      rw [List.mapM_cons] at h
      obtain ⟨first, hfirst, h⟩ := Option.bind_eq_some_iff.mp h
      obtain ⟨rest, hrest, h⟩ := Option.bind_eq_some_iff.mp h
      cases h
      refine List.forall_mem_cons.mpr ⟨⟨first, List.mem_cons_self, hfirst⟩, fun b hb => ?_⟩
      obtain ⟨b', hb', hfb⟩ := ih hrest b hb
      exact ⟨b', List.mem_cons_of_mem _ hb', hfb⟩

end Foundations
