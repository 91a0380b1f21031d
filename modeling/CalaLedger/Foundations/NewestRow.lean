import CalaLedger.Foundations.VersionedTable

/-! # Newest rows

A versioned table whose histories carry no order: the rows of a key have different versions, and
the current row is the one of greatest version (`MirrorsNewest`). Rows may be added in any order and
in any split into statements, as long as no version is taken twice (`newest_append`); a list that
counts its versions up, in whatever order it names them, is `Numbered`. -/

namespace Foundations

namespace VersionedTable

variable {κ σ : Type*}

section Newest

variable (version : σ → ℕ)

/-- The row of greatest version, with its version. -/
def newest (rows : List σ) : Option (ℕ × σ) :=
  (rows.argmax version).map (fun s => (version s, s))

/-- The rows of a key have different versions, and its current row is the newest. -/
structure MirrorsNewest (t : VersionedTable κ σ) : Prop where
  distinct : ∀ k, ((t.history k).map version).Nodup
  current : ∀ k, t.current k = newest version (t.history k)

/-- The versions of a list are those after `base`, each once, in some order. -/
def Numbered (base : ℕ) (rows : List σ) : Prop :=
  (rows.map version).Perm (List.range' (base + 1) rows.length)

variable {version}

@[simp] theorem newest_nil : newest version [] = none := rfl

theorem newest_eq_none {rows : List σ} : newest version rows = none ↔ rows = [] := by
  rw [newest, Option.map_eq_none_iff, List.argmax_eq_none]

/-- The newest row is a row, and no other has a greater version. -/
theorem newest_spec {rows : List σ} {row : ℕ × σ} (h : newest version rows = some row) :
    row.2 ∈ rows ∧ version row.2 = row.1 ∧ ∀ s ∈ rows, version s ≤ row.1 := by
  obtain ⟨s, hs, rfl⟩ := Option.map_eq_some_iff.mp h
  exact ⟨List.argmax_mem hs, rfl, fun s' hs' => List.le_of_mem_argmax hs' hs⟩

/-- Among different versions there is one newest row. -/
theorem newest_eq_some {rows : List σ} (hrows : (rows.map version).Nodup) {row : ℕ × σ} :
    newest version rows = some row
      ↔ row.2 ∈ rows ∧ version row.2 = row.1 ∧ ∀ s ∈ rows, version s ≤ row.1 := by
  refine ⟨newest_spec, ?_⟩
  rintro ⟨hmem, hversion, htop⟩
  cases hnewest : newest version rows with
  | none =>
      rw [newest_eq_none.mp hnewest] at hmem
      cases hmem
  | some top =>
      obtain ⟨htopMem, htopVersion, hle⟩ := newest_spec hnewest
      have heq : version top.2 = version row.2 := by
        have h₁ := hle row.2 hmem
        have h₂ := htop top.2 htopMem
        omega
      have hsame := List.inj_on_of_nodup_map hrows htopMem hmem heq
      exact congrArg some (Prod.ext (by omega) hsame)

/-- **The newest of two lists** is the newer of their newest rows. -/
theorem newest_append {front back : List σ} (hrows : ((front ++ back).map version).Nodup)
    {top : ℕ × σ} (htop : newest version back = some top) :
    newest version (front ++ back)
      = match newest version front with
        | none => some top
        | some row => some (max row.1 top.1, if row.1 < top.1 then top.2 else row.2) := by
  obtain ⟨hmem, hversion, hle⟩ := newest_spec htop
  cases hfront : newest version front with
  | none =>
      rw [newest_eq_none.mp hfront, List.nil_append]
      exact htop
  | some row =>
      obtain ⟨hrow, hrowVersion, hrowLe⟩ := newest_spec hfront
      refine (newest_eq_some hrows).mpr ?_
      by_cases hlt : row.1 < top.1
      · simp only [hlt, if_true, max_eq_right hlt.le]
        refine ⟨List.mem_append_right _ hmem, hversion, fun s hs => ?_⟩
        rcases List.mem_append.mp hs with hs | hs
        · exact (hrowLe s hs).trans hlt.le
        · exact hle s hs
      · simp only [hlt, if_false, max_eq_left (not_lt.mp hlt)]
        refine ⟨List.mem_append_left _ hrow, hrowVersion, fun s hs => ?_⟩
        rcases List.mem_append.mp hs with hs | hs
        · exact hrowLe s hs
        · exact (hle s hs).trans (not_lt.mp hlt)

/-! ## Numbered rows -/

theorem numbered_nil (base : ℕ) : Numbered version base [] := List.Perm.refl _

theorem Counts.numbered {base : ℕ} {rows : List σ} (h : Counts version base rows) :
    Numbered version base rows := by
  rw [Numbered, h]

theorem Numbered.of_perm {base : ℕ} {rows rows' : List σ} (h : Numbered version base rows)
    (hperm : rows'.Perm rows) : Numbered version base rows' := by
  rw [Numbered, hperm.length_eq]
  exact (hperm.map _).trans h

theorem Numbered.append {base : ℕ} {front back : List σ} (hfront : Numbered version base front)
    (hback : Numbered version (base + front.length) back) :
    Numbered version base (front ++ back) := by
  rw [Numbered, List.map_append, List.length_append, ← List.range'_append_1]
  refine List.Perm.append hfront ?_
  rw [show base + 1 + front.length = base + front.length + 1 by omega]
  exact hback

theorem Numbered.nodup {base : ℕ} {rows : List σ} (h : Numbered version base rows) :
    (rows.map version).Nodup :=
  h.nodup_iff.mpr List.nodup_range'

theorem Numbered.bounds {base : ℕ} {rows : List σ} (h : Numbered version base rows) {s : σ}
    (hs : s ∈ rows) : base < version s ∧ version s ≤ base + rows.length := by
  have hmem : version s ∈ List.range' (base + 1) rows.length :=
    h.mem_iff.mp (List.mem_map_of_mem hs)
  rw [List.mem_range'_1] at hmem
  omega

/-- The newest of numbered rows carries their number. -/
theorem Numbered.newest {base : ℕ} {rows : List σ} (h : Numbered version base rows) {row : ℕ × σ}
    (hrow : VersionedTable.newest version rows = some row) : row.1 = base + rows.length := by
  obtain ⟨hmem, hversion, hle⟩ := newest_spec hrow
  have hpos : 0 < rows.length := List.length_pos_of_mem hmem
  -- the last number is some row's version
  have hlast : base + rows.length ∈ List.range' (base + 1) rows.length := by
    rw [List.mem_range'_1]
    omega
  obtain ⟨s, hs, hs'⟩ := List.mem_map.mp (h.mem_iff.mpr hlast)
  have h₁ := hle s hs
  have h₂ := (h.bounds hmem).2
  omega

end Newest

end VersionedTable

end Foundations
